import NetCentric.Lines
import NetCentric.Relay

/-!
# The length of a response

What the handlers compute from the first 1024 bytes of a response in which
`"Content-Length:"` is found. They take the first such text for the header, wherever it
stands, the first empty line after it or before it for the end of the headers, and
subtract in `int`.

`content_length_iff` says for which responses that is the header of the response, its
value, and the number of bytes that are left, with room for an array of that size.
-/

open NetCentric.Scanf

namespace NetCentric

/-- What the handlers search for. -/
def contentLength : List Byte :=
  bytes "Content-Length:"

/-- The header line gives this length : digits, with blanks around them. -/
def Declares (l : List Byte) (n : ℕ) : Prop :=
  ∃ blanks digits trailing, l = headerName l ++ 58 :: (blanks ++ (digits ++ trailing)) ∧
    (∀ c ∈ blanks ++ trailing, c = 32 ∨ c = 9) ∧ digits ≠ [] ∧
    (∀ c ∈ digits, isdigit c = true) ∧ digitsValue digits = n

/-- A complete response : a status line, headers, an empty line, and a body of the length
that each header `Content-Length` gives. -/
structure Response where
  status : List Byte
  headers : List (List Byte)
  body : List Byte
  lines : ∀ l ∈ status :: headers, IsLine l
  no_nul : 0 ∉ block (status :: headers)
  complete : ∀ l ∈ headers, Named "Content-Length" l → Declares l body.length

namespace Response

variable (r : Response)

/-- The text of the response. -/
def text : List Byte :=
  block (r.status :: r.headers) ++ (CRLF ++ r.body)

/-- The number of bytes up to the body. -/
def headerSize : ℕ :=
  (block (r.status :: r.headers)).length + 2

/-- The text that the handlers search, when the first `read` fills the array. -/
def searched (m : Memory) : List Byte :=
  responseText m (r.text.take 1024)

/-- The first text that is searched for is in front of a header line. -/
def OwnLineFirst : Prop :=
  ∃ before line after, r.headers = before ++ line :: after ∧ contentLength <+: line ∧
    ∀ l ∈ r.status :: before, ¬contentLength <:+: l

/-- The searches, the number and the difference are right, for the offset of
`cLengthLine`. -/
structure ReadsRest (m : Memory) (cLengthLine : ℕ) : Prop where
  /-- The end of the headers is found inside the array. -/
  blank : ∃ blank, strstr (r.searched m) (bytes "\r\n\r\n") = some blank ∧ blank + 4 ≤ 1024
  /-- The line is a `Content-Length` header of the response, and the number its value. -/
  own : ∃ before line after n, r.headers = before ++ line :: after ∧
    Named "Content-Length" line ∧ cLengthLine = (block (r.status :: before)).length ∧
    Declares line n ∧
    numberAt (sscanf ((r.searched m).drop cLengthLine) "Content-Length: %d") 0 0 = n
  /-- There is no overflow, the difference is the number of bytes that are left, and there
  is room for an array of that size. -/
  rest : contentSize m (r.searched m) cLengthLine = some (r.text.length - 1024 : ℤ)

end Response

/-! ## The text that is searched -/

namespace Response

variable {r : Response} {m : Memory} {cLengthLine : ℕ}

theorem length_text (r : Response) : r.text.length = r.headerSize + r.body.length := by
  simp only [text, headerSize, List.length_append, CRLF, List.length_cons, List.length_nil]
  omega

/-- Headers that fit the array are in front of the text that is searched. -/
theorem searched_eq (h : r.headerSize ≤ 1024) (m : Memory) :
    ∃ tail, r.searched m = block (r.status :: r.headers) ++ (CRLF ++ tail) := by
  have hnul : 0 ∉ block (r.status :: r.headers) ++ CRLF := by
    have hcrlf : (0 : Byte) ∉ CRLF := by decide
    exact fun h0 => (List.mem_append.1 h0).elim r.no_nul hcrlf
  have hlen : (block (r.status :: r.headers) ++ CRLF).length = r.headerSize := by
    rw [List.length_append]
    rfl
  have htake : r.text.take 1024 = (block (r.status :: r.headers) ++ CRLF) ++
      r.body.take (1024 - r.headerSize) := by
    rw [text, ← List.append_assoc, List.take_append, List.take_of_length_le (hlen ▸ h), hlen]
  refine ⟨cstr (r.body.take (1024 - r.headerSize) ++ m.beyond), ?_⟩
  rw [searched, responseText, htake, List.append_assoc, cstr_append_of_no_nul hnul,
    List.append_assoc]

/-- The end of the headers of a text that starts with them. -/
theorem strstr_headers (r : Response) (tail : List Byte) :
    strstr (block (r.status :: r.headers) ++ (CRLF ++ tail)) (bytes "\r\n\r\n") =
      some (r.headerSize - 4) := by
  have hneedle : bytes "\r\n\r\n" = CRLF ++ CRLF := by decide
  obtain ⟨hstatus, hheaders⟩ := List.forall_mem_cons.1 r.lines
  rw [hneedle, strstr_blank hheaders hstatus, headerSize, block_cons]
  simp only [List.length_append, Option.some.injEq, CRLF, List.length_cons, List.length_nil]
  omega

theorem le_headerSize (r : Response) : 4 ≤ r.headerSize := by
  simp only [headerSize, block_cons, List.length_append, CRLF, List.length_cons, List.length_nil]
  omega

/-- The end of the headers is found inside the array if and only if it is there. -/
theorem blank_iff (hfull : 1024 ≤ r.text.length) :
    (∃ blank, strstr (r.searched m) (bytes "\r\n\r\n") = some blank ∧ blank + 4 ≤ 1024) ↔
      r.headerSize ≤ 1024 := by
  have h4 := r.le_headerSize
  constructor
  · rintro ⟨blank, hblank, hle⟩
    obtain ⟨before, after, hsearched, rfl, -⟩ := strstr_eq_some_iff.1 hblank
    have hlen : (bytes "\r\n\r\n").length = 4 := by decide
    -- what is found in the array is found in the response
    have harray : before ++ bytes "\r\n\r\n" <+: r.text.take 1024 := by
      have hp : before ++ bytes "\r\n\r\n" <+: r.text.take 1024 ++ m.beyond :=
        List.IsPrefix.trans ⟨after, hsearched.symm⟩ (List.takeWhile_prefix _)
      refine List.prefix_of_prefix_length_le hp (List.prefix_append _ _) ?_
      rw [List.length_append, List.length_take]
      omega
    obtain ⟨rest, hrest⟩ := harray.trans (List.take_prefix _ _)
    obtain ⟨-, -, -, -, hmin⟩ := strstr_eq_some_iff.1 (r.strstr_headers r.body)
    have := hmin before rest hrest.symm
    omega
  · intro h
    obtain ⟨tail, htail⟩ := r.searched_eq h m
    exact ⟨r.headerSize - 4, by rw [htail, strstr_headers], by omega⟩

/-- A header line that starts with the text that is searched for. -/
theorem named_of_prefix {line : List Byte} (h : contentLength <+: line) :
    Named "Content-Length" line := by
  obtain ⟨rest, rfl⟩ := h
  have hname : contentLength = bytes "Content-Length" ++ 58 :: [] := by decide
  have hcolon : (58 : Byte) ∉ bytes "Content-Length" := by decide
  rw [Named, hname, List.append_assoc, List.cons_append, headerName_append hcolon]

/-- The text around a header line. -/
theorem searched_line (h : r.headerSize ≤ 1024) (m : Memory) {before after : List (List Byte)}
    {line : List Byte} (hheaders : r.headers = before ++ line :: after) :
    ∃ rest, r.searched m = block (r.status :: before) ++ (line ++ 13 :: rest) := by
  obtain ⟨tail, htail⟩ := r.searched_eq h m
  refine ⟨10 :: (block after ++ (CRLF ++ tail)), ?_⟩
  rw [htail, hheaders]
  simp [CRLF]

/-- A header line in front of which the text is found is the first with the text. -/
theorem own_of_offset (h : r.headerSize ≤ 1024) {before after : List (List Byte)}
    {line : List Byte} (hheaders : r.headers = before ++ line :: after)
    (hfound : strstr (r.searched m) contentLength = some (block (r.status :: before)).length) :
    r.OwnLineFirst := by
  have hwithin : WithinLine contentLength := by decide
  obtain ⟨rest, htext⟩ := searched_line h m hheaders
  obtain ⟨front, rest', hsplit, hlen, hmin⟩ := strstr_eq_some_iff.1 hfound
  refine ⟨before, line, after, hheaders, ?_, fun l hl => ?_⟩
  · rw [htext, List.append_assoc] at hsplit
    obtain ⟨-, hline⟩ := List.append_inj hsplit hlen.symm
    exact prefix_of_prefix_append hwithin.1 ⟨rest', hline.symm⟩
  · -- a text in an earlier line would be found before
    rintro ⟨u, v, rfl⟩
    obtain ⟨ls, ms, hls⟩ := List.append_of_mem hl
    have hle := hmin (block ls ++ u) (v ++ CRLF ++ block ms ++ (line ++ 13 :: rest))
      (by rw [htext, hls]; simp)
    have hpos : 0 < contentLength.length := by decide
    rw [hls, block_append, block_cons] at hle
    simp only [List.length_append] at hle
    omega

/-- The first header line with the text is where it is found. -/
theorem offset_of_own (h : r.headerSize ≤ 1024) {before after : List (List Byte)}
    {line : List Byte} (hheaders : r.headers = before ++ line :: after)
    (hline : contentLength <+: line) (hno : ∀ l ∈ r.status :: before, ¬contentLength <:+: l) :
    strstr (r.searched m) contentLength = some (block (r.status :: before)).length := by
  have hne : contentLength ≠ [] := by decide
  have hwithin : WithinLine contentLength := by decide
  obtain ⟨rest, htext⟩ := searched_line h m hheaders
  have hskip : Skips contentLength (block (r.status :: before)) (line ++ 13 :: rest) := by
    refine .of_block fun l hl t => .of_line (r.lines l ?_).2 hne hwithin (hno l hl)
    rw [hheaders]
    exact List.mem_append_left (line :: after) hl
  rw [htext, strstr_append hskip, strstr_of_front (hline.trans (List.prefix_append _ _))]
  rfl

/-- The number that is read from a header line. -/
theorem numberAt_line {line : List Byte} {n : ℕ} (hline : contentLength <+: line)
    (hn : Declares line n) (hfits : (n : ℤ) ≤ INT_MAX) (rest : List Byte) :
    numberAt (sscanf (line ++ 13 :: rest) "Content-Length: %d") 0 0 = n := by
  obtain ⟨s, rfl⟩ := hline
  obtain ⟨blanks, digits, trailing, hsplit, hblanks, hne, hdigits, rfl⟩ := hn
  have hname : contentLength = bytes "Content-Length" ++ 58 :: [] := by decide
  have hcolon : (58 : Byte) ∉ bytes "Content-Length" := by decide
  have hs : s = blanks ++ (digits ++ trailing) := by
    rw [hname, List.append_assoc, List.cons_append, headerName_append hcolon] at hsplit
    exact (List.cons.inj (List.append_cancel_left hsplit)).2
  have hformat : directives "Content-Length: %d" =
      contentLength.map .lit ++ [.space, .int] := by decide
  have hspace : ∀ c ∈ blanks, isspace c = true := fun c hc => by
    rcases hblanks c (List.mem_append_left _ hc) with rfl | rfl <;> decide
  have hstop : ∀ c ∈ (trailing ++ 13 :: rest).head?, isdigit c = false := by
    rcases trailing with _ | ⟨c, trailing⟩
    · intro c hc
      obtain rfl := Option.some.inj hc
      decide
    · intro d hd
      obtain rfl := Option.some.inj hd
      rcases hblanks c (by simp) with rfl | rfl <;> decide
  have hskip : ∀ c ∈ (digits ++ (trailing ++ 13 :: rest)).head?, isspace c = false := by
    obtain ⟨d, ds, rfl⟩ := List.exists_cons_of_ne_nil hne
    intro c hc
    obtain rfl := Option.some.inj hc
    exact isspace_of_isdigit (hdigits d List.mem_cons_self)
  have htext : contentLength ++ s ++ 13 :: rest =
      contentLength ++ (blanks ++ (digits ++ (trailing ++ 13 :: rest))) := by
    simp [hs]
  rw [sscanf, hformat, htext, scan_lits, scan, (takeWhile_append hspace hskip).2,
    scan_int_digits hne hdigits hstop, intValue_of_fits hfits]
  rfl

/-- The difference, for headers that fit the array. -/
theorem remainingLength_iff (h : r.headerSize ≤ 1024) (m : Memory) (cLengthLine : ℕ) (n : ℤ) :
    remainingLength (r.searched m) cLengthLine = some n ↔
      ∃ x, numberAt (sscanf ((r.searched m).drop cLengthLine) "Content-Length: %d") 0 0 = x ∧
        FitsInt (x + r.headerSize) ∧ FitsInt (x + r.headerSize - 1024) ∧
        0 ≤ x + r.headerSize - 1024 ∧ x + r.headerSize - 1024 = n := by
  have h4 := r.le_headerSize
  obtain ⟨tail, htail⟩ := r.searched_eq h m
  have hblank : strstr (r.searched m) (bytes "\r\n\r\n") = some (r.headerSize - 4) := by
    rw [htail, strstr_headers]
  have hsize : toInt (((r.headerSize - 4 : ℕ) : ℤ) + 4) = r.headerSize := by
    have hcast : (((r.headerSize - 4 : ℕ) : ℤ) + 4) = r.headerSize := by omega
    rw [hcast, toInt_eq_self_iff, FitsInt, INT_MIN, INT_MAX]
    omega
  simp only [remainingLength, hblank, hsize, checked, Option.bind_eq_bind, Option.bind_some,
    Option.bind_eq_some_iff, Option.ite_none_right_eq_some, Option.some.injEq]
  constructor
  · rintro ⟨y, ⟨hy, rfl⟩, z, ⟨hz, rfl⟩, hpos, hn⟩
    exact ⟨_, rfl, hy, hz, hpos, hn⟩
  · rintro ⟨x, rfl, hy, hz, hpos, hn⟩
    exact ⟨_, ⟨hy, rfl⟩, _, ⟨hz, rfl⟩, hpos, hn⟩

end Response

/-- The size of the array, if there is room for it. -/
theorem contentSize_eq_some {m : Memory} {text : List Byte} {cLengthLine : ℕ} {n : ℤ} :
    contentSize m text cLengthLine = some n ↔
      remainingLength text cLengthLine = some n ∧ n ≤ m.room := by
  simp [contentSize, Option.filter_eq_some_iff]

/-- The relay then asks for exactly what is left. -/
theorem Response.ReadsRest.relay_eq {m : Memory} {r : Response} {cLengthLine : ℕ}
    (h : r.ReadsRest m cLengthLine) (hfull : 1024 ≤ r.text.length)
    (hfound : strstr (r.searched m) contentLength = some cLengthLine)
    (responses : List ReadResult) : relay m (.data (r.text.take 1024) :: responses) = (do
      Prog.call (.read .server 1024 (.data (r.text.take 1024)))
      Prog.call (.write .client (r.text.take 1024) 1024)
      relayContent (r.text.length - 1024) 1024 responses) := by
  have hlen : (r.text.take 1024).length = 1024 := by
    rw [List.length_take]
    omega
  have hsize := h.rest
  have hint : toInt ((1024 : ℕ) : ℤ) = 1024 := by decide
  rw [Response.searched] at hfound hsize
  rw [contentLength] at hfound
  simp only [relay_of_eq hlen, hfound, hsize, orUndefined, Prog.pure_bind]
  rw [hlen, hint]
  rfl

/-- The length of a response is taken from its own header, and the bytes that are left are
counted right and have an array, if and only if the headers fit the array, the response is
no longer than an `int` counts, there is room for what is left, and the first text that is
searched for is in front of a header line. The relay then asks for exactly what is left. -/
theorem content_length_iff {m : Memory} {r : Response} {cLengthLine : ℕ}
    (hfull : 1024 ≤ r.text.length)
    (hfound : strstr (r.searched m) contentLength = some cLengthLine) :
    (r.ReadsRest m cLengthLine ↔
      r.headerSize ≤ 1024 ∧ (r.text.length : ℤ) ≤ INT_MAX ∧ (r.text.length : ℤ) - 1024 ≤ m.room ∧
        r.OwnLineFirst) ∧
    (r.ReadsRest m cLengthLine → ∀ responses,
      relay m (.data (r.text.take 1024) :: responses) = (do
        Prog.call (.read .server 1024 (.data (r.text.take 1024)))
        Prog.call (.write .client (r.text.take 1024) 1024)
        relayContent (r.text.length - 1024) 1024 responses)) := by
  have hlen : (r.text.length : ℤ) = r.headerSize + r.body.length := by
    rw [r.length_text, Nat.cast_add]
  refine ⟨⟨?_, ?_⟩, fun h => h.relay_eq hfull hfound⟩
  · rintro ⟨hblank, ⟨before, line, after, n, hheaders, -, rfl, -⟩, hrest⟩
    have h := (Response.blank_iff hfull).1 hblank
    obtain ⟨hrest, hroom⟩ := contentSize_eq_some.1 hrest
    obtain ⟨x, -, hfits, -, -, hx⟩ := (Response.remainingLength_iff h _ _ _).1 hrest
    refine ⟨h, ?_, hroom, Response.own_of_offset h hheaders hfound⟩
    have := hfits.2
    omega
  · rintro ⟨h, hint, hroom, before, line, after, hheaders, hline, hno⟩
    obtain rfl := Option.some.inj
      (hfound.symm.trans (Response.offset_of_own h hheaders hline hno))
    have hnamed := Response.named_of_prefix hline
    have hdeclares := r.complete line (by rw [hheaders]; simp) hnamed
    have hnumber : numberAt (sscanf ((r.searched m).drop (block (r.status :: before)).length)
        "Content-Length: %d") 0 0 = r.body.length := by
      obtain ⟨rest, htext⟩ := Response.searched_line h m hheaders
      rw [htext, List.drop_left]
      exact Response.numberAt_line hline hdeclares (by omega) rest
    refine ⟨(Response.blank_iff hfull).2 h,
      ⟨before, line, after, _, hheaders, hnamed, rfl, hdeclares, hnumber⟩,
      contentSize_eq_some.2 ⟨?_, hroom⟩⟩
    rw [Response.remainingLength_iff h]
    rw [INT_MAX] at hint
    refine ⟨_, hnumber, ?_, ?_, by omega, by omega⟩ <;>
    · rw [FitsInt, INT_MIN, INT_MAX]
      omega

/-- The header of a body of 1000 bytes. -/
def thousandLine : List Byte :=
  bytes "Content-Length: 1000"

theorem declares_thousandLine : Declares thousandLine 1000 := by
  have hblank : bytes " " = [32] := by decide
  refine ⟨bytes " ", bytes "1000", [], by decide, fun c hc => .inl ?_, by decide,
    List.all_eq_true.1 (by decide), by decide⟩
  rw [hblank] at hc
  exact List.mem_singleton.1 hc

/-- A response with a body of 1000 bytes. -/
def thousand (headers : List (List Byte)) (hlines : ∀ l ∈ headers, IsLine l)
    (hnul : 0 ∉ block headers)
    (hcomplete : ∀ l ∈ headers, Named "Content-Length" l → l = thousandLine) : Response where
  status := bytes "HTTP/1.1 200 OK"
  headers := headers
  body := List.replicate 1000 97
  lines := List.forall_mem_cons.2 ⟨by decide, hlines⟩
  no_nul := by
    have hstatus : (0 : Byte) ∉ bytes "HTTP/1.1 200 OK" ++ CRLF := by decide
    exact fun h => (List.mem_append.1 h).elim hstatus hnul
  complete := fun l hl hnamed => by
    rw [List.length_replicate, hcomplete l hl hnamed]
    exact declares_thousandLine

/-- The header of the response alone. -/
def ownHeader : Response :=
  thousand [thousandLine] (by decide) (by decide) (by decide)

/-- A header with a longer name before it. -/
def longerHeader : Response :=
  thousand [bytes "X-Content-Length: 7", thousandLine] (by decide) (by decide) (by decide)

theorem length_ownHeader : ownHeader.text.length = 1041 := by
  rw [Response.length_text, ownHeader, thousand, Response.headerSize, List.length_replicate]
  decide

theorem length_longerHeader : longerHeader.text.length = 1062 := by
  rw [Response.length_text, longerHeader, thousand, Response.headerSize, List.length_replicate]
  decide

theorem content_length_own : ownHeader.ReadsRest .clear 17 := by
  have hsize : ownHeader.headerSize ≤ 1024 := by decide
  have hno : ∀ l ∈ [ownHeader.status], ¬contentLength <:+: l := by decide
  have hfound : strstr (ownHeader.searched .clear) contentLength = some 17 :=
    Response.offset_of_own hsize rfl (by decide) hno
  exact (content_length_iff (by rw [length_ownHeader]; decide) hfound).1.2
    ⟨hsize, by rw [length_ownHeader]; decide, by rw [length_ownHeader]; decide,
      [], thousandLine, [], rfl, by decide, hno⟩

/-- The number of the longer name is taken. -/
theorem content_length_longer : ¬∀ (m : Memory) (r : Response) (cLengthLine : ℕ),
    1024 ≤ r.text.length → strstr (r.searched m) contentLength = some cLengthLine →
    r.ReadsRest m cLengthLine := by
  intro h
  have hsize : longerHeader.headerSize ≤ 1024 := by decide
  obtain ⟨tail, htail⟩ := longerHeader.searched_eq hsize .clear
  have hin : contentLength <:+: longerHeader.searched .clear := by
    have hblock : contentLength <:+: block (longerHeader.status :: longerHeader.headers) := by
      decide
    exact htail ▸ hblock.trans (List.prefix_append _ _).isInfix
  obtain ⟨cLengthLine, hfound⟩ := Option.isSome_iff_exists.1 (strstr_isSome_iff.2 hin)
  obtain ⟨-, ⟨before, line, after, n, hheaders, -, rfl, -⟩, -⟩ := h .clear longerHeader _
    (by rw [length_longerHeader]; decide) hfound
  obtain ⟨before, line, after, hheaders, hline, hno⟩ :=
    Response.own_of_offset hsize hheaders hfound
  -- the longer name comes first, and the text is in it
  rcases before with _ | ⟨b, before⟩
  · obtain rfl := (List.cons.inj hheaders).1
    exact absurd hline (by decide)
  · obtain rfl := (List.cons.inj hheaders).1
    exact absurd (hno _ (List.mem_cons_of_mem _ List.mem_cons_self)) (by decide)

end NetCentric
