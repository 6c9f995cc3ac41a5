import NetCentric.Url
import NetCentric.Decimal

/-!
# Reading the log back

An entry of the log has the time in front, which may be any text without a newline, and
then the address, the url and the counts. `decode` reads a line from the right : the last
field is one number or two with a slash between them, which tells the two formats apart,
and the fields in front of it have no spaces in them. What the time is does not matter.

`log_unambiguous` : each entry is one line, the line gives the entry back, and so does
the file, line by line, whatever the urls are.
-/

open NetCentric.Scanf

namespace NetCentric

namespace LogFormat

/-! ## The decoder -/

/-- What one entry of the log says. -/
inductive Entry
  | get (host : BitVec 32) (url : List Byte) (size : ℤ)
  | connect (host : BitVec 32) (url : List Byte) (sent recv : ℤ)
  deriving DecidableEq

namespace Entry

/-- The url that the client sent. -/
def url : Entry → List Byte
  | get _ url _ => url
  | connect _ url _ _ => url

/-- The text of the entry. -/
def format (time : List Byte) : Entry → List Byte
  | get host url size => formatLogEntry time host url size
  | connect host url sent recv => formatConnectEntry time host url sent recv

end Entry

/-- The fields of a line, the last one first. -/
def fields (line : List Byte) : List (List Byte) :=
  (line.splitOn 32).reverse

/-- Read a `%d`. -/
def readInt : List Byte → ℤ
  | 45 :: digits => -digitsValue digits
  | digits => digitsValue digits

/-- Read a `%d.%d.%d.%d`. -/
def readAddress (s : List Byte) : Option (BitVec 32) :=
  match (s.splitOn 46).map digitsValue with
  | [a, b, c, d] => some (BitVec.ofNat 32 (((a * 256 + b) * 256 + c) * 256 + d))
  | _ => none

/-- Read a line of the log. -/
def decode (line : List Byte) : Option Entry :=
  match fields line with
  | [] => none
  | counts :: before =>
    match counts.splitOn 47, before with
    | [size], url :: host :: _ => do
      return .get (← readAddress host) url (readInt size)
    | [sent, recv], _ :: _ :: url :: _ :: host :: _ => do
      -- the url is followed by a comma
      return .connect (← readAddress host) url.dropLast (readInt sent) (readInt recv)
    | _, _ => none

/-- Read a log. -/
def readLog (file : List Byte) : Option (List Entry) :=
  (file.splitOn 10).dropLast.mapM decode

/-! ## The fields -/

section Fields

variable {s t : List Byte} {x : ℤ}

/-- A field without a space is taken off at the right. -/
theorem fields_append (s : List Byte) (h : 32 ∉ t) : fields (s ++ 32 :: t) = t :: fields s := by
  rw [fields, List.splitOn_append_cons_self, List.splitOn_eq_singleton h, List.reverse_append]
  rfl

theorem readInt_decimal (x : ℤ) : readInt (decimal x) = x := by
  rcases decimal_cases x with ⟨hx, hd⟩ | ⟨hx, hd⟩ <;> rw [hd]
  · have hminus : ∀ digits, bytes x.natAbs.repr ≠ 45 :: digits := fun digits h => by
      have hdigit : isdigit 45 = true :=
        isdigit_of_mem_repr (n := x.natAbs) (h ▸ List.mem_cons_self)
      exact absurd hdigit (by decide)
    rw [readInt.eq_2 _ hminus, digitsValue_repr]
    omega
  · rw [readInt, digitsValue_repr]
    omega

/-- A byte that is neither a digit nor a minus sign is not in a number. -/
theorem notMem_decimal {c : Byte} (hminus : c ≠ 45) (hdigit : isdigit c = false) :
    c ∉ decimal x := by
  intro h
  rcases mem_decimal h with h | h
  · exact hminus h
  · rw [hdigit] at h
    cases h

theorem digitsValue_decimal (n : ℕ) : digitsValue (decimal n) = n := by
  rcases decimal_cases n with ⟨-, hd⟩ | ⟨hn, -⟩
  · rw [hd, Int.natAbs_natCast, digitsValue_repr]
  · omega

/-- The four bytes of an address are read back. -/
theorem readAddress_dotted (host : BitVec 32) : readAddress (dotted host) = some host := by
  have hdot : bytes "." = [46] := by decide
  have hfree : ∀ x : ℤ, 46 ∉ decimal x := fun x => notMem_decimal (by decide) (by decide)
  have hmask : ∀ x : BitVec 32, (x &&& 0xff).toNat = x.toNat % 256 := fun x => by
    rw [BitVec.toNat_and]
    exact Nat.and_two_pow_sub_one_eq_mod x.toNat 8
  simp only [readAddress, dotted, hdot, List.append_assoc, List.cons_append, List.nil_append,
    List.splitOn_append_cons_self_of_not_mem (hfree _), List.splitOn_eq_singleton (hfree _),
    List.map_cons, List.map_nil, digitsValue_decimal, Option.some.injEq]
  apply BitVec.eq_of_toNat_eq
  have hlt := host.isLt
  rw [BitVec.toNat_ofNat]
  simp only [hmask, BitVec.toNat_ushiftRight, Nat.shiftRight_eq_div_pow]
  omega

theorem notMem_dotted {c : Byte} (hminus : c ≠ 45) (hdot : c ≠ 46) (hdigit : isdigit c = false)
    (host : BitVec 32) : c ∉ dotted host := by
  have hbytes : bytes "." = [46] := by decide
  have hfree : ∀ x : ℤ, c ∉ decimal x := fun x => notMem_decimal hminus hdigit
  simp [dotted, hbytes, hfree, hdot]

theorem notMem_token {c : Byte} (hs : IsToken s) (hc : isspace c = true) : c ∉ s := by
  intro h
  rw [hs.2 c h] at hc
  cases hc

end Fields

/-! ## One line -/

section Line

variable {time : List Byte} {e : Entry}

/-- The text of an entry in front of its newline. -/
def Entry.line (time : List Byte) : Entry → List Byte
  | get host url size =>
    time ++ bytes ": " ++ dotted host ++ bytes " " ++ url ++ bytes " " ++ decimal size
  | connect host url sent recv =>
    time ++ bytes " CONNECT from " ++ dotted host ++ bytes " to " ++ url ++
      bytes ", Data Transferred " ++ decimal sent ++ bytes "/" ++ decimal recv

theorem Entry.format_eq (time : List Byte) (e : Entry) : e.format time = e.line time ++ [10] := by
  have hnewline : bytes "\n" = [10] := by decide
  cases e <;> simp only [format, line, formatLogEntry, formatConnectEntry, hnewline]

/-- The line has no newline in it. -/
theorem Entry.notMem_line (htime : 10 ∉ time) (hurl : IsToken e.url) : 10 ∉ e.line time := by
  have hnumber : ∀ x : ℤ, 10 ∉ decimal x := fun x => notMem_decimal (by decide) (by decide)
  have haddress : ∀ host, 10 ∉ dotted host := notMem_dotted (by decide) (by decide) (by decide)
  have htoken := notMem_token hurl (c := 10) (by decide)
  cases e with
  | get host url size =>
    have h₁ : 10 ∉ bytes ": " := by decide
    have h₂ : 10 ∉ bytes " " := by decide
    simp only [Entry.url] at htoken
    simp [line, htime, hnumber, haddress, htoken, h₁, h₂]
  | connect host url sent recv =>
    have h₁ : 10 ∉ bytes " CONNECT from " := by decide
    have h₂ : 10 ∉ bytes " to " := by decide
    have h₃ : 10 ∉ bytes ", Data Transferred " := by decide
    have h₄ : 10 ∉ bytes "/" := by decide
    simp only [Entry.url] at htoken
    simp [line, htime, hnumber, haddress, htoken, h₁, h₂, h₃, h₄]

theorem fields_get {url : List Byte} (hurl : IsToken url) (host : BitVec 32) (size : ℤ) :
    fields ((Entry.get host url size).line time) =
      decimal size :: url :: dotted host :: fields (time ++ bytes ":") := by
  have hcolon : bytes ": " = bytes ":" ++ [32] := by decide
  have hspace : bytes " " = [32] := by decide
  have hline : (Entry.get host url size).line time =
      ((time ++ bytes ":") ++ 32 :: dotted host ++ 32 :: url) ++ 32 :: decimal size := by
    simp [Entry.line, hcolon, hspace]
  rw [hline, fields_append _ (notMem_decimal (by decide) (by decide)),
    fields_append _ (notMem_token hurl (by decide)),
    fields_append _ (notMem_dotted (by decide) (by decide) (by decide) host)]

theorem fields_connect {url : List Byte} (hurl : IsToken url) (host : BitVec 32) (sent recv : ℤ) :
    fields ((Entry.connect host url sent recv).line time) =
      (decimal sent ++ 47 :: decimal recv) :: bytes "Transferred" :: bytes "Data" ::
        (url ++ [44]) :: bytes "to" :: dotted host :: fields (time ++ bytes " CONNECT from") := by
  have hfrom : bytes " CONNECT from " = bytes " CONNECT from" ++ [32] := by decide
  have hto : bytes " to " = 32 :: bytes "to" ++ [32] := by decide
  have hdata : bytes ", Data Transferred " =
      44 :: 32 :: bytes "Data" ++ 32 :: bytes "Transferred" ++ [32] := by decide
  have hline : (Entry.connect host url sent recv).line time =
      ((((((time ++ bytes " CONNECT from") ++ 32 :: dotted host) ++ 32 :: bytes "to") ++
        32 :: (url ++ [44])) ++ 32 :: bytes "Data") ++ 32 :: bytes "Transferred") ++
          32 :: (decimal sent ++ 47 :: decimal recv) := by
    simp [Entry.line, hfrom, hto, hdata, bytes_slash]
  have hnumber : ∀ x : ℤ, 32 ∉ decimal x := fun x => notMem_decimal (by decide) (by decide)
  have hcounts : 32 ∉ decimal sent ++ 47 :: decimal recv := by simp [hnumber]
  have htoken : 32 ∉ url ++ [44] := by simp [notMem_token hurl (c := 32) (by decide)]
  rw [hline, fields_append _ hcounts, fields_append _ (by decide : 32 ∉ bytes "Transferred"),
    fields_append _ (by decide : 32 ∉ bytes "Data"), fields_append _ htoken,
    fields_append _ (by decide : 32 ∉ bytes "to"),
    fields_append _ (notMem_dotted (by decide) (by decide) (by decide) host)]

/-- The line gives the entry back. -/
theorem decode_line (time : List Byte) (hurl : IsToken e.url) :
    decode (e.line time) = some e := by
  have hslash : ∀ x : ℤ, 47 ∉ decimal x := fun x => notMem_decimal (by decide) (by decide)
  cases e with
  | get host url size =>
    have htoken : IsToken url := hurl
    rw [decode, fields_get htoken]
    simp only [List.splitOn_eq_singleton (hslash size), readAddress_dotted, readInt_decimal,
      Option.bind_eq_bind, Option.bind_some, Option.pure_def]
  | connect host url sent recv =>
    have htoken : IsToken url := hurl
    rw [decode, fields_connect htoken]
    simp only [List.splitOn_append_cons_self_of_not_mem (hslash sent),
      List.splitOn_eq_singleton (hslash recv), readAddress_dotted, readInt_decimal,
      List.dropLast_concat, Option.bind_eq_bind, Option.bind_some, Option.pure_def]

/-- For one time, two entries with the same text are the same. -/
theorem Entry.format_inj {e' : Entry} (hurl : IsToken e.url) (hurl' : IsToken e'.url) :
    e.format time = e'.format time ↔ e = e' := by
  refine ⟨fun h => ?_, fun h => by rw [h]⟩
  rw [format_eq, format_eq, List.append_left_inj] at h
  have hdecode := decode_line time hurl
  rw [h, decode_line time hurl'] at hdecode
  exact (Option.some.inj hdecode).symm

end Line

/-! ## The whole log -/

/-- The entries of a log, each with its time, are read back line by line. -/
theorem readLog_flatMap {log : List (List Byte × Entry)}
    (h : ∀ x ∈ log, 10 ∉ x.1 ∧ IsToken x.2.url) :
    readLog (log.flatMap fun x => x.2.format x.1) = some (log.map Prod.snd) := by
  induction log with
  | nil => rfl
  | cons x log ih =>
    obtain ⟨⟨htime, hurl⟩, hlog⟩ := List.forall_mem_cons.1 h
    rw [List.flatMap_cons, x.2.format_eq, List.append_assoc, List.singleton_append, readLog,
      List.splitOn_append_cons_self_of_not_mem (Entry.notMem_line htime hurl),
      List.dropLast_cons_of_ne_nil (List.splitOn_ne_nil _ _), List.mapM_cons,
      decode_line x.1 hurl]
    change ((readLog _).bind fun entries => some (x.2 :: entries)) = _
    rw [ih hlog]
    rfl

/-- An entry is one line, which read from the right gives the entry back. So for one time
no two entries have the same text, and a log gives back the entries written to it, with
any urls and any times. -/
theorem log_unambiguous {time : List Byte} {e : Entry} (htime : 10 ∉ time) (hurl : IsToken e.url) :
    (∃ line, e.format time = line ++ [10] ∧ 10 ∉ line ∧ decode line = some e) ∧
      (∀ e', IsToken e'.url → (e.format time = e'.format time ↔ e = e')) ∧
      ∀ log : List (List Byte × Entry), (∀ x ∈ log, 10 ∉ x.1 ∧ IsToken x.2.url) →
        readLog (log.flatMap fun x => x.2.format x.1) = some (log.map Prod.snd) :=
  ⟨⟨e.line time, e.format_eq time, Entry.notMem_line htime hurl, decode_line time hurl⟩,
    fun _ hurl' => Entry.format_inj hurl hurl', fun _ hlog => readLog_flatMap hlog⟩

/-- A url that looks like the end of an entry. -/
theorem log_unambiguous_forged :
    ∃ line, formatConnectEntry (bytes "Mon") 0x7f000001 (bytes "a:443,Data/Transferred,1/2") 3
      (-4) = line ++ [10] ∧ 10 ∉ line ∧
        decode line = some (.connect 0x7f000001 (bytes "a:443,Data/Transferred,1/2") 3 (-4)) :=
  (@log_unambiguous (bytes "Mon")
    (.connect 0x7f000001 (bytes "a:443,Data/Transferred,1/2") 3 (-4)) (by decide) (by decide)).1

end LogFormat

end NetCentric
