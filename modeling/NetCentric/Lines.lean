import NetCentric.CString

/-!
# Searching a text of lines

A text of lines is a `block`, in which each line ends with CRLF. What `strstr` finds in it
is found line by line.

`Skips` says that no occurrence starts in the first part of a text, so that the search
goes on behind it (`strstr_append`, `replaceFirst_append`). A text skips a line that it is
not in (`Skips.of_line`), and with a CRLF behind it also a line that does not end with it
(`Skips.of_ending`). The first empty line is the one behind the block (`strstr_blank`).

A `block` with a first line, an empty line and a body is a message (`IsMessage`), and there
is one way to read it as one (`IsMessage.unique`).
-/

namespace NetCentric

/-! ## Skipping a part of a text -/

section Skips

variable {α : Type*} {needle s t : List α}

/-- No occurrence starts in `s`, with `t` behind it. -/
def Skips (needle : List α) : List α → List α → Prop
  | [], _ => True
  | c :: s, t => ¬needle <+: c :: (s ++ t) ∧ Skips needle s t

theorem Skips.append {r : List α} (hs : Skips needle s (t ++ r)) (ht : Skips needle t r) :
    Skips needle (s ++ t) r := by
  induction s with
  | nil => exact ht
  | cons c s ih =>
    obtain ⟨hc, hs⟩ := hs
    refine ⟨?_, ih hs⟩
    rwa [← List.append_assoc] at hc

/-- A text that starts with a byte that is not in `s`. -/
theorem Skips.of_head {c : α} (h : c ∉ s) : Skips (c :: needle) s t := by
  induction s with
  | nil => trivial
  | cons d s ih =>
    exact ⟨fun hp => h ((List.cons_prefix_cons.1 hp).1 ▸ List.mem_cons_self),
      ih fun hs => h (List.mem_cons_of_mem _ hs)⟩

end Skips

section Search

variable {α : Type*} [DecidableEq α] {needle new s t : List α}

/-- A text that is in front is found there. -/
theorem strstr_of_front (h : needle <+: s) : strstr s needle = some 0 := by
  obtain ⟨after, rfl⟩ := h
  exact strstr_eq_some_iff.2 ⟨[], after, rfl, rfl, fun _ _ _ => Nat.zero_le _⟩

theorem strstr_cons {c : α} (h : ¬needle <+: c :: s) :
    strstr (c :: s) needle = (strstr s needle).map (· + 1) := by
  have hsplit : ∀ before after, c :: s = before ++ needle ++ after →
      ∃ before', before = c :: before' ∧ s = before' ++ needle ++ after := by
    intro before after heq
    rcases before with _ | ⟨d, before'⟩
    · exact absurd ⟨after, heq.symm⟩ h
    · obtain ⟨rfl, hs⟩ := List.cons.inj heq
      exact ⟨before', rfl, hs⟩
  cases hfound : strstr s needle with
  | none =>
    rw [Option.map_none, strstr_eq_none_iff]
    rintro ⟨before, after, heq⟩
    obtain ⟨before', -, hs⟩ := hsplit before after heq.symm
    exact strstr_eq_none_iff.1 hfound ⟨before', after, hs.symm⟩
  | some i =>
    obtain ⟨before, after, hs, hi, hmin⟩ := strstr_eq_some_iff.1 hfound
    rw [Option.map_some, strstr_eq_some_iff]
    refine ⟨c :: before, after, by rw [hs]; rfl, by rw [List.length_cons, hi], ?_⟩
    intro before' after' heq
    obtain ⟨b, rfl, hs'⟩ := hsplit before' after' heq
    have := hmin b after' hs'
    rw [List.length_cons]
    omega

/-- The search goes on behind what is skipped. -/
theorem strstr_append (h : Skips needle s t) :
    strstr (s ++ t) needle = (strstr t needle).map (s.length + ·) := by
  induction s with
  | nil => simp
  | cons c s ih =>
    obtain ⟨hc, hs⟩ := h
    rw [List.cons_append, strstr_cons hc, ih hs, Option.map_map]
    congr 1
    funext i
    rw [Function.comp_apply, List.length_cons]
    omega

theorem replaceFirst_of_front : replaceFirst needle new (needle ++ t) = new ++ t := by
  rw [replaceFirst_of_strstr (strstr_of_front (List.prefix_append _ _)), List.take_zero,
    List.nil_append, Nat.zero_add, List.drop_left]

theorem replaceFirst_append (h : Skips needle s t) :
    replaceFirst needle new (s ++ t) = s ++ replaceFirst needle new t := by
  cases ht : strstr t needle with
  | none => rw [replaceFirst_of_none ht, replaceFirst_of_none (by rw [strstr_append h, ht]; rfl)]
  | some i =>
    have hst : strstr (s ++ t) needle = some (s.length + i) := by
      rw [strstr_append h, ht]
      rfl
    rw [replaceFirst_of_strstr ht, replaceFirst_of_strstr hst, List.take_length_add_append,
      Nat.add_assoc, List.drop_length_add_append]
    simp only [List.append_assoc]

end Search

/-! ## Lines -/

/-- The end of a line. -/
def CRLF : List Byte :=
  [13, 10]

/-- A text within a line. -/
def WithinLine (l : List Byte) : Prop :=
  13 ∉ l ∧ 10 ∉ l

/-- A line that is not empty. -/
def IsLine (l : List Byte) : Prop :=
  l ≠ [] ∧ WithinLine l

instance : DecidablePred WithinLine :=
  fun _ => inferInstanceAs (Decidable (_ ∧ _))

instance : DecidablePred IsLine :=
  fun _ => inferInstanceAs (Decidable (_ ∧ _))

/-- Lines with their ends. -/
def block (ls : List (List Byte)) : List Byte :=
  ls.flatMap (· ++ CRLF)

@[simp] theorem block_nil : block [] = [] :=
  rfl

@[simp] theorem block_cons (l : List Byte) (ls : List (List Byte)) :
    block (l :: ls) = l ++ CRLF ++ block ls :=
  rfl

@[simp] theorem block_append (ls ms : List (List Byte)) : block (ls ++ ms) = block ls ++ block ms :=
  List.flatMap_append

section Lines

variable {l n t : List Byte}

/-- Two texts up to their first `c`. -/
theorem cut_unique {c : Byte} {a b s t : List Byte} (ha : c ∉ a) (hb : c ∉ b)
    (h : a ++ c :: s = b ++ c :: t) : a = b ∧ s = t := by
  have hlen : a.length = b.length := by
    have hfirst := congrArg (strchr · c) h
    rwa [strchr_append ha, strchr_append hb, Option.some.injEq] at hfirst
  obtain ⟨rfl, hst⟩ := List.append_inj h hlen
  exact ⟨rfl, (List.cons.inj hst).2⟩

/-- A text without a CR in front of a line is in the line. -/
theorem prefix_of_prefix_append (hn : 13 ∉ n) (h : n <+: l ++ 13 :: t) : n <+: l := by
  rcases List.prefix_or_prefix_of_prefix h (List.prefix_append l _) with hp | ⟨rest, rfl⟩
  · exact hp
  · rcases List.prefix_cons_iff.1 ((List.prefix_append_right_inj l).1 h) with rfl | ⟨r, rfl, -⟩
    · rw [List.append_nil]
    · exact absurd (List.mem_append_right _ List.mem_cons_self) hn

/-- A text with a CRLF behind it skips the end of a line. -/
theorem Skips.of_crlf (hne : n ≠ []) (hn : WithinLine n) (r : List Byte) :
    Skips (n ++ r) CRLF t := by
  obtain ⟨c, n, rfl⟩ := List.exists_cons_of_ne_nil hne
  refine .of_head fun hc => ?_
  rcases List.mem_cons.1 hc with rfl | hc
  · exact hn.1 List.mem_cons_self
  · exact hn.2 (List.mem_singleton.1 hc ▸ List.mem_cons_self)

theorem WithinLine.tail {c : Byte} (h : WithinLine (c :: l)) : WithinLine l :=
  ⟨fun h13 => h.1 (List.mem_cons_of_mem _ h13), fun h10 => h.2 (List.mem_cons_of_mem _ h10)⟩

/-- A text with a CRLF skips a line that does not end with it. -/
theorem Skips.of_ending (hl : WithinLine l) (hne : n ≠ []) (hn : WithinLine n) (h : ¬n <:+ l) :
    Skips (n ++ CRLF) (l ++ CRLF) t := by
  refine .append ?_ (.of_crlf hne hn _)
  induction l with
  | nil => trivial
  | cons c l ih =>
    refine ⟨fun hp => h ?_, ih hl.tail fun hs => h (hs.trans (List.suffix_cons _ _))⟩
    obtain ⟨rest, hrest⟩ := hp
    have hcut : n ++ 13 :: (10 :: rest) = (c :: l) ++ 13 :: (10 :: t) := by
      simpa [CRLF] using hrest
    rw [(cut_unique hn.1 hl.1 hcut).1]

/-- A text within a line skips a line that it is not in. -/
theorem Skips.of_line (hl : WithinLine l) (hne : n ≠ []) (hn : WithinLine n) (h : ¬n <:+: l) :
    Skips n (l ++ CRLF) t := by
  refine .append ?_ (by simpa using Skips.of_crlf hne hn [])
  induction l with
  | nil => trivial
  | cons c l ih =>
    refine ⟨fun hp => h ?_, ih hl.tail fun hs => h (hs.trans (List.suffix_cons _ _).isInfix)⟩
    -- it ends before the CR, so it is in the line
    have hp' : n <+: (c :: l) ++ 13 :: (10 :: t) := by simpa [CRLF] using hp
    exact (prefix_of_prefix_append hn.1 hp').isInfix

/-- What skips each line of a block skips the block. -/
theorem Skips.of_block {ls : List (List Byte)} (h : ∀ l ∈ ls, ∀ t, Skips n (l ++ CRLF) t) :
    Skips n (block ls) t := by
  induction ls with
  | nil => trivial
  | cons l ls ih =>
    exact .append (h l List.mem_cons_self _) (ih fun l' hl' => h l' (List.mem_cons_of_mem _ hl'))

/-- A text with a CRLF, in front of which stand some bytes more. -/
theorem Skips.of_longer (hl : 13 ∉ l) (hn : 13 ∉ n) : Skips (n ++ CRLF) l (n ++ CRLF ++ t) := by
  induction l with
  | nil => trivial
  | cons c l ih =>
    refine ⟨fun ⟨rest, hrest⟩ => ?_, ih fun h => hl (List.mem_cons_of_mem _ h)⟩
    have hcut : n ++ 13 :: (10 :: rest) = (c :: (l ++ n)) ++ 13 :: (10 :: t) := by
      simpa [CRLF] using hrest
    have hmem : 13 ∉ c :: (l ++ n) := by
      simpa only [List.mem_cons, List.mem_append, not_or, ← and_assoc] using And.intro hl hn
    have hlen := congrArg List.length (cut_unique hn hmem hcut).1
    simp only [List.length_cons, List.length_append] at hlen
    omega

/-- A line that follows is not the empty line. -/
theorem Skips.of_blank (hl : IsLine l) : Skips (CRLF ++ CRLF) CRLF (l ++ t) := by
  obtain ⟨c, l, rfl⟩ := List.exists_cons_of_ne_nil hl.1
  refine ⟨fun h => hl.2.1 ?_, fun h => ?_, trivial⟩
  · simp only [CRLF, List.cons_append, List.nil_append, List.cons_prefix_cons, true_and] at h
    exact h.1 ▸ List.mem_cons_self
  · exact absurd (List.cons_prefix_cons.1 h).1 (by decide)

/-- The empty line after a block is the first. -/
theorem strstr_blank {ls : List (List Byte)} (hls : ∀ l ∈ ls, IsLine l) (hl : IsLine l) :
    strstr (block (l :: ls) ++ (CRLF ++ t)) (CRLF ++ CRLF) =
      some (l.length + (block ls).length) := by
  have hskip : ∀ {l s}, IsLine l → Skips (CRLF ++ CRLF) l s := fun hl => .of_head hl.2.1
  induction ls generalizing l with
  | nil =>
    have htext : block [l] ++ (CRLF ++ t) = l ++ (CRLF ++ CRLF ++ t) := by simp
    rw [htext, strstr_append (hskip hl), strstr_of_front (List.prefix_append _ _)]
    rfl
  | cons l' ls ih =>
    obtain ⟨hl', hls⟩ := List.forall_mem_cons.1 hls
    have htext : block (l :: l' :: ls) ++ (CRLF ++ t) =
        (l ++ CRLF) ++ (block (l' :: ls) ++ (CRLF ++ t)) := by simp
    have hfirst : Skips (CRLF ++ CRLF) (l ++ CRLF) (block (l' :: ls) ++ (CRLF ++ t)) := by
      refine .append (hskip hl) ?_
      rw [block_cons, List.append_assoc, List.append_assoc]
      exact .of_blank hl'
    rw [htext, strstr_append hfirst, ih hls hl', Option.map_some, block_cons]
    simp only [List.length_append, Option.some.injEq, CRLF, List.length_cons, List.length_nil]
    omega

/-- Blocks with an empty line behind them are equal line by line. -/
theorem block_unique {ls ms : List (List Byte)} {s t : List Byte} (hls : ∀ l ∈ ls, IsLine l)
    (hms : ∀ l ∈ ms, IsLine l) (h : block ls ++ (CRLF ++ s) = block ms ++ (CRLF ++ t)) :
    ls = ms ∧ s = t := by
  -- an empty line is no line of the other block
  have hempty : ∀ {l s t}, IsLine l → CRLF ++ s ≠ l ++ CRLF ++ t := by
    intro l s t hl h
    have hcut : [] ++ 13 :: (10 :: s) = l ++ 13 :: (10 :: t) := by simpa [CRLF] using h
    exact hl.1 (cut_unique (by simp) hl.2.1 hcut).1.symm
  induction ls generalizing ms with
  | nil =>
    rcases ms with _ | ⟨m, ms⟩
    · exact ⟨rfl, List.append_cancel_left h⟩
    · rw [block_cons, List.append_assoc] at h
      exact absurd h (hempty (hms m List.mem_cons_self))
  | cons l ls ih =>
    obtain ⟨hl, hls⟩ := List.forall_mem_cons.1 hls
    rcases ms with _ | ⟨m, ms⟩
    · rw [block_cons, List.append_assoc] at h
      exact absurd h.symm (hempty hl)
    · obtain ⟨hm, hms'⟩ := List.forall_mem_cons.1 hms
      have hcut : l ++ 13 :: (10 :: (block ls ++ (CRLF ++ s))) =
          m ++ 13 :: (10 :: (block ms ++ (CRLF ++ t))) := by simpa [CRLF] using h
      obtain ⟨rfl, hrest⟩ := cut_unique hl.2.1 hm.2.1 hcut
      obtain ⟨rfl, hst⟩ := ih hls hms' (List.cons.inj hrest).2
      exact ⟨rfl, hst⟩

end Lines

/-! ## Messages -/

/-- A first line, header lines, an empty line, and a body. -/
structure IsMessage (text first : List Byte) (headers : List (List Byte)) (body : List Byte) :
    Prop where
  text_eq : text = block (first :: headers) ++ (CRLF ++ body)
  lines : ∀ l ∈ first :: headers, IsLine l

/-- A message has one first line, one list of headers and one body. -/
theorem IsMessage.unique {text first first' body body' : List Byte}
    {headers headers' : List (List Byte)} (h : IsMessage text first headers body)
    (h' : IsMessage text first' headers' body') :
    first = first' ∧ headers = headers' ∧ body = body' := by
  obtain ⟨hlines, hbody⟩ := block_unique h.lines h'.lines (h.text_eq.symm.trans h'.text_eq)
  exact ⟨(List.cons.inj hlines).1, (List.cons.inj hlines).2, hbody⟩

/-- The name of a header line. -/
def headerName (l : List Byte) : List Byte :=
  l.takeWhile (· ≠ 58)

theorem headerName_append {name : List Byte} (h : 58 ∉ name) (s : List Byte) :
    headerName (name ++ 58 :: s) = name := by
  have hname : ∀ c ∈ name, decide (c ≠ 58) = true :=
    fun c hc => decide_eq_true fun h58 => h (h58 ▸ hc)
  rw [headerName, List.takeWhile_append_of_pos hname]
  simp

/-- The header line has this name, up to case. -/
def Named (name : String) (l : List Byte) : Prop :=
  (headerName l).map tolower = (bytes name).map tolower

instance (name : String) : DecidablePred (Named name) :=
  fun _ => inferInstanceAs (Decidable (_ = _))

end NetCentric
