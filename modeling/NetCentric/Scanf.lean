import NetCentric.CString
import NetCentric.CInt
import Mathlib.Data.List.DropRight

/-!
# sscanf

The part of `sscanf` with white space, literal bytes, `%s`, `%[^…]` and `%d`. A format
is read into directives (`directives`), and `sscanf` runs them over a C string and
returns the values assigned, in order, up to the first directive that fails. Its C
result is their number, or `EOF`, which no caller here tells from `0`.

`%d` reads like `strtol` : the digits saturate at the ends of `long`, and the `int` gets
the low 32 bits.

A token is a non-empty text without white space (`IsToken`), and `"%s %s %s"` reads the
first three words of a text (`sscanf_words`). Every text that is stored is cut out of the input
(`isInfix_of_text_mem`), so it is no longer than that.
-/

namespace NetCentric

namespace Scanf

/-- One directive of a format. -/
inductive Directive
  /-- White space : any amount of white space. -/
  | space
  /-- A byte that matches itself. -/
  | lit (c : Byte)
  /-- `%s`. -/
  | str
  /-- `%[^stop]`. -/
  | scanset (stop : List Byte)
  /-- `%d`. -/
  | int
  deriving DecidableEq

/-- What one conversion stores. -/
inductive Value
  | text (s : List Byte)
  | number (x : ℤ)
  deriving DecidableEq

/-- The directives of a format. Inside `%[^…]`, the bytes of the set so far. -/
def directivesFrom : Option (List Byte) → List Char → List Directive
  | _, [] => []
  | none, '%' :: '[' :: '^' :: f => directivesFrom (some []) f
  | none, '%' :: 's' :: f => .str :: directivesFrom none f
  | none, '%' :: 'd' :: f => .int :: directivesFrom none f
  | none, c :: f => (if c.isWhitespace then .space else .lit c.toUInt8) :: directivesFrom none f
  | some stop, ']' :: f => .scanset stop :: directivesFrom none f
  | some stop, c :: f => directivesFrom (some (stop ++ [c.toUInt8])) f

/-- The directives of a format string. -/
def directives (format : String) : List Directive :=
  directivesFrom none format.toList

/-- The number a sequence of digits writes. -/
def digitsValue (digits : List Byte) : ℕ :=
  digits.foldl (fun v d => 10 * v + (d.toNat - 48)) 0

/-- The ends of `long`. -/
def LONG_MAX : ℤ :=
  2 ^ 63 - 1

/-- The number `%d` stores, for a sign and digits. -/
def intValue (negative : Bool) (digits : List Byte) : ℤ :=
  toInt (if negative then max (-LONG_MAX - 1) (-digitsValue digits)
    else min LONG_MAX (digitsValue digits))

/-- The sign in front of a number. -/
def scanSign : List Byte → Bool × List Byte
  | 43 :: s => (false, s)
  | 45 :: s => (true, s)
  | s => (false, s)

/-- Run the directives over a C string. -/
def scan : List Directive → List Byte → List Value
  | [], _ => []
  | .space :: fmt, s => scan fmt (s.dropWhile isspace)
  | .lit _ :: _, [] => []
  | .lit c :: fmt, b :: s => if b = c then scan fmt s else []
  | .str :: fmt, s =>
    let s := s.dropWhile isspace
    match s.takeWhile (!isspace ·) with
    | [] => []
    | tok => .text tok :: scan fmt (s.dropWhile (!isspace ·))
  | .scanset stop :: fmt, s =>
    match s.takeWhile (· ∉ stop) with
    | [] => []
    | tok => .text tok :: scan fmt (s.dropWhile (· ∉ stop))
  | .int :: fmt, s =>
    let (negative, s) := scanSign (s.dropWhile isspace)
    match s.takeWhile isdigit with
    | [] => []
    | digits => .number (intValue negative digits) :: scan fmt (s.dropWhile isdigit)

/-- The values `sscanf(s, format, …)` assigns. -/
def sscanf (s : List Byte) (format : String) : List Value :=
  scan (directives format) s

/-- A non-empty text without white space. -/
def IsToken (tok : List Byte) : Prop :=
  tok ≠ [] ∧ ∀ c ∈ tok, isspace c = false

instance (tok : List Byte) : Decidable (IsToken tok) :=
  @instDecidableAnd _ _ inferInstance (List.decidableBAll _ tok)

/-! ## Words -/

/-- The words of a text, which white space separates. -/
def words (s : List Byte) : List (List Byte) :=
  (s.splitOnP isspace).filter (· ≠ [])

@[simp] theorem words_nil : words [] = [] :=
  rfl

theorem words_append_cons {c : Byte} (hc : isspace c = true) (s t : List Byte) :
    words (s ++ c :: t) = words s ++ words t := by
  rw [words, List.splitOnP_append_cons s t hc, List.filter_append]
  rfl

theorem words_cons {c : Byte} (hc : isspace c = true) (s : List Byte) :
    words (c :: s) = words s :=
  words_append_cons hc [] s

/-- A byte that is no white space starts the first word. -/
theorem words_cons_of_not_space {c : Byte} (hc : isspace c = false) (s : List Byte) :
    ∃ tok rest, words (c :: s) = (c :: tok) :: rest := by
  obtain ⟨tok, rest, h⟩ := List.exists_cons_of_ne_nil (List.splitOnP_ne_nil isspace s)
  exact ⟨tok, rest.filter (· ≠ []), by simp [words, List.splitOnP_cons_eq_if_modifyHead, hc, h]⟩

theorem words_ne_nil {c : Byte} {s : List Byte} (hc : isspace c = false) (h : c ∈ s) :
    words s ≠ [] := by
  induction s with
  | nil => cases h
  | cons d s ih =>
    cases hd : isspace d with
    | true =>
      rw [words_cons hd]
      refine ih ((List.mem_cons.1 h).resolve_left fun heq => ?_)
      rw [heq, hd] at hc
      cases hc
    | false =>
      obtain ⟨tok, rest, hwords⟩ := words_cons_of_not_space hd s
      rw [hwords]
      exact List.cons_ne_nil _ _

theorem words_token {tok : List Byte} (ht : IsToken tok) : words tok = [tok] := by
  rw [words, List.splitOnP_eq_singleton ht.2]
  simp [ht.1]

/-- A token and white space before a text. -/
theorem words_token_cons {tok : List Byte} {c : Byte} (ht : IsToken tok) (hc : isspace c = true)
    (s : List Byte) : words (tok ++ c :: s) = tok :: words s := by
  rw [words_append_cons hc, words_token ht, List.singleton_append]

theorem words_dropWhile (s : List Byte) : words (s.dropWhile isspace) = words s := by
  induction s with
  | nil => rfl
  | cons c s ih =>
    rw [List.dropWhile_cons]
    split
    case isTrue hc => rw [ih, words_cons hc]
    case isFalse => rfl

/-- `%s` reads the first word. -/
theorem scan_str_cases (fmt : List Directive) (s : List Byte) :
    words s = [] ∧ scan (.str :: fmt) s = [] ∨
      ∃ tok rest, words s = tok :: words rest ∧
        scan (.str :: fmt) s = .text tok :: scan fmt rest := by
  have hnot : ∀ b : Byte, (!isspace b) = true → isspace b = false := fun b hb => by simpa using hb
  have hsplit := List.takeWhile_append_dropWhile (p := (!isspace ·)) (l := s.dropWhile isspace)
  rw [← words_dropWhile s]
  cases htok : (s.dropWhile isspace).takeWhile (!isspace ·) with
  | nil =>
    refine .inl ⟨?_, by simp [scan, htok]⟩
    cases hs : s.dropWhile isspace with
    | nil => rfl
    | cons c t =>
      have hc : isspace c = false := by simpa [hs] using List.head?_dropWhile_not isspace s
      simp [hs, hc] at htok
  | cons c tok =>
    have ht : IsToken (c :: tok) := by
      refine ⟨by simp, fun b hb => hnot b ?_⟩
      rw [← htok] at hb
      exact List.mem_takeWhile_imp (p := (!isspace ·)) hb
    refine .inr ⟨c :: tok, (s.dropWhile isspace).dropWhile (!isspace ·), ?_, by simp [scan, htok]⟩
    rw [htok] at hsplit
    conv_lhs => rw [← hsplit]
    cases hrest : (s.dropWhile isspace).dropWhile (!isspace ·) with
    | nil => rw [List.append_nil, words_token ht, words_nil]
    | cons b rest =>
      have hb : isspace b = true := by
        simpa [hrest] using List.head?_dropWhile_not (!isspace ·) (s.dropWhile isspace)
      rw [words_token_cons ht hb, words_cons hb]

theorem scan_space_str (fmt : List Directive) (s : List Byte) :
    scan (.space :: .str :: fmt) s = scan (.str :: fmt) s := by
  simp only [scan, List.dropWhile_idempotent]

/-- `"%s %s %s"` reads the first three words. -/
theorem sscanf_words (s : List Byte) : sscanf s "%s %s %s" = ((words s).take 3).map .text := by
  have hfmt : directives "%s %s %s" = [.str, .space, .str, .space, .str] := by decide
  rw [sscanf, hfmt]
  rcases scan_str_cases [.space, .str, .space, .str] s with ⟨hw, hs⟩ | ⟨a, s, hw, hs⟩ <;>
    rw [hw, hs]
  · rfl
  rw [scan_space_str]
  rcases scan_str_cases [.space, .str] s with ⟨hw, hs⟩ | ⟨b, s, hw, hs⟩ <;> rw [hw, hs]
  · rfl
  rw [scan_space_str]
  rcases scan_str_cases [] s with ⟨hw, hs⟩ | ⟨c, s, hw, hs⟩ <;> rw [hw, hs]
  · rfl
  · rfl

/-! ## What is stored -/

/-- Whether the conversion of a directive, if it has one, stores a text. -/
def Directive.storesText : Directive → Option Bool
  | .str | .scanset _ => some true
  | .int => some false
  | _ => none

/-- The value is a text. -/
def Value.isText : Value → Bool
  | .text _ => true
  | .number _ => false

/-- The values are of the kinds of the conversions, in order. -/
theorem kinds_of_scan (fmt : List Directive) (s : List Byte) :
    (scan fmt s).map Value.isText <+: fmt.filterMap Directive.storesText := by
  induction fmt generalizing s with
  | nil => exact List.nil_prefix
  | cons d fmt ih =>
    cases d with
    | space => exact ih _
    | lit c =>
      rcases s with _ | ⟨b, s⟩
      · exact List.nil_prefix
      · rw [scan]
        split
        · exact ih s
        · exact List.nil_prefix
    | str =>
      simp only [scan]
      split
      · exact List.nil_prefix
      · exact List.cons_prefix_cons.2 ⟨rfl, ih _⟩
    | scanset stop =>
      simp only [scan]
      split
      · exact List.nil_prefix
      · exact List.cons_prefix_cons.2 ⟨rfl, ih _⟩
    | int =>
      simp only [scan]
      split
      · exact List.nil_prefix
      · exact List.cons_prefix_cons.2 ⟨rfl, ih _⟩

theorem scanSign_suffix (s : List Byte) : (scanSign s).2 <:+ s := by
  unfold scanSign
  split
  · exact List.suffix_cons _ _
  · exact List.suffix_cons _ _
  · exact List.suffix_refl _

/-- Every text that is stored is cut out of the input. -/
theorem isInfix_of_text_mem {fmt : List Directive} {s t : List Byte}
    (h : .text t ∈ scan fmt s) : t <:+: s := by
  induction fmt generalizing s with
  | nil => simp [scan] at h
  | cons d fmt ih =>
    cases d with
    | space => exact (ih h).trans (List.dropWhile_suffix _).isInfix
    | lit c =>
      rcases s with _ | ⟨b, s⟩
      · simp [scan] at h
      · rw [scan] at h
        split at h
        · exact (ih h).trans (List.suffix_cons _ _).isInfix
        · simp at h
    | str =>
      have hsuf := List.dropWhile_suffix (l := s) isspace
      simp only [scan] at h
      split at h
      · simp at h
      · rcases List.mem_cons.1 h with h | h
        · obtain rfl := Value.text.inj h
          exact (List.takeWhile_prefix _).isInfix.trans hsuf.isInfix
        · exact (ih h).trans ((List.dropWhile_suffix _).trans hsuf).isInfix
    | scanset stop =>
      simp only [scan] at h
      split at h
      · simp at h
      · rcases List.mem_cons.1 h with h | h
        · obtain rfl := Value.text.inj h
          exact (List.takeWhile_prefix _).isInfix
        · exact (ih h).trans (List.dropWhile_suffix _).isInfix
    | int =>
      have hsuf := (scanSign_suffix (s.dropWhile isspace)).trans (List.dropWhile_suffix _)
      simp only [scan] at h
      split at h
      · simp at h
      · rcases List.mem_cons.1 h with h | h
        · cases h
        · exact (ih h).trans ((List.dropWhile_suffix _).trans hsuf).isInfix

/-! ## What one directive reads -/

/-- A text of bytes that satisfy `p`, up to the end or to a byte that does not. -/
theorem takeWhile_append {p : Byte → Bool} {s t : List Byte} (hs : ∀ c ∈ s, p c = true)
    (ht : ∀ c ∈ t.head?, p c = false) :
    (s ++ t).takeWhile p = s ∧ (s ++ t).dropWhile p = t := by
  have hstop : t.takeWhile p = [] ∧ t.dropWhile p = t := by
    rcases t with _ | ⟨c, t⟩
    · exact ⟨rfl, rfl⟩
    · have hc : p c = false := ht c rfl
      simp [hc]
  rw [List.takeWhile_append_of_pos hs, List.dropWhile_append_of_pos hs, hstop.1, hstop.2,
    List.append_nil]
  exact ⟨rfl, rfl⟩

/-- The text is in front, so the literal bytes match it. -/
theorem scan_lits (lits : List Byte) (fmt : List Directive) (s : List Byte) :
    scan (lits.map .lit ++ fmt) (lits ++ s) = scan fmt s := by
  induction lits with
  | nil => rfl
  | cons c lits ih => simp only [List.map_cons, List.cons_append, scan, if_true, ih]

/-- The text is not in front. -/
theorem scan_lits_of_mismatch {lits s : List Byte} (h : ¬lits <+: s) (fmt : List Directive) :
    scan (lits.map .lit ++ fmt) s = [] := by
  induction lits generalizing s with
  | nil => exact absurd List.nil_prefix h
  | cons c lits ih =>
    rcases s with _ | ⟨b, s⟩
    · rfl
    simp only [List.map_cons, List.cons_append, scan]
    split
    case isTrue hb => exact ih fun hp => h (List.cons_prefix_cons.2 ⟨hb.symm, hp⟩)
    case isFalse => rfl

/-- `%s` reads a token, up to the end. -/
theorem scan_str_token {tok : List Byte} (ht : IsToken tok) (fmt : List Directive) :
    scan (.str :: fmt) tok = .text tok :: scan fmt [] := by
  rcases tok with _ | ⟨c, tok⟩
  · exact absurd rfl ht.1
  have hall : ∀ b ∈ c :: tok, (!isspace b) = true := fun b hb => by simp [ht.2 b hb]
  have hskip : (c :: tok).dropWhile isspace = c :: tok := by
    rw [List.dropWhile_cons, if_neg (by simp [ht.2 c (by simp)])]
  simp only [scan, hskip, List.takeWhile_eq_self_iff.2 hall, List.dropWhile_eq_nil_iff.2 hall]

/-- `%[^…]` reads the bytes before the first one of its set. -/
theorem scan_scanset {stop tok rest : List Byte} (hne : tok ≠ []) (htok : ∀ c ∈ tok, c ∉ stop)
    (hrest : ∀ c ∈ rest.head?, c ∈ stop) (fmt : List Directive) :
    scan (.scanset stop :: fmt) (tok ++ rest) = .text tok :: scan fmt rest := by
  obtain ⟨htake, hdrop⟩ := takeWhile_append (p := (· ∉ stop)) (t := rest)
    (fun c hc => decide_eq_true (htok c hc)) fun c hc => by simpa using hrest c hc
  simp only [scan, htake, hdrop]

theorem scan_scanset_of_stop {stop s : List Byte} (h : ∀ c ∈ s.head?, c ∈ stop)
    (fmt : List Directive) : scan (.scanset stop :: fmt) s = [] := by
  obtain ⟨htake, -⟩ := takeWhile_append (p := (· ∉ stop)) (s := []) (t := s) (by simp)
    fun c hc => by simpa using h c hc
  rw [List.nil_append] at htake
  simp only [scan, htake]

theorem isspace_of_isdigit {c : Byte} (h : isdigit c = true) : isspace c = false := by
  rw [isdigit, Bool.and_eq_true, decide_eq_true_eq, decide_eq_true_eq] at h
  have h32 : c ≠ 32 := fun h0 => by rw [h0] at h; exact absurd h.1 (by decide)
  have h13 : ¬c ≤ 13 := fun hle => absurd (UInt8.le_trans h.1 hle) (by decide)
  simp [isspace, h32, h13]

/-- `%d` reads digits. -/
theorem scan_int_digits {digits rest : List Byte} (hne : digits ≠ [])
    (hdigits : ∀ c ∈ digits, isdigit c = true) (hrest : ∀ c ∈ rest.head?, isdigit c = false)
    (fmt : List Directive) :
    scan (.int :: fmt) (digits ++ rest) = .number (intValue false digits) :: scan fmt rest := by
  obtain ⟨htake, hdrop⟩ := takeWhile_append hdigits hrest
  rcases digits with _ | ⟨c, digits⟩
  · exact absurd rfl hne
  have hc := hdigits c (by simp)
  have hskip : (c :: digits ++ rest).dropWhile isspace = c :: digits ++ rest := by
    rw [List.cons_append, List.dropWhile_cons, if_neg (by simp [isspace_of_isdigit hc])]
  have hsign : scanSign (c :: digits ++ rest) = (false, c :: digits ++ rest) := by
    have h43 : c ≠ 43 := fun h => by rw [h] at hc; exact absurd hc (by decide)
    have h45 : c ≠ 45 := fun h => by rw [h] at hc; exact absurd hc (by decide)
    rw [List.cons_append, scanSign]
    · intro s hs
      exact h43 (List.cons.inj hs).1
    · intro s hs
      exact h45 (List.cons.inj hs).1
  simp only [scan, hskip, hsign, htake, hdrop]

/-- The number is the value of the digits, if it is an `int`. -/
theorem intValue_of_fits {digits : List Byte} (h : (digitsValue digits : ℤ) ≤ INT_MAX) :
    intValue false digits = digitsValue digits := by
  have hmin : min LONG_MAX (digitsValue digits : ℤ) = digitsValue digits := by
    have hlong : INT_MAX ≤ LONG_MAX := by decide
    omega
  rw [intValue, if_neg Bool.false_ne_true, hmin, toInt_eq_self_iff, FitsInt, INT_MIN]
  omega

end Scanf

end NetCentric
