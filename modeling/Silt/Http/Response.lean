import Silt.Http.Wire
import Silt.Lib.Ascii
import Silt.Lib.Utf8

/-!
# HTTP responses on the wire

The bytes of a response are lines, an empty line and a body.  A header that is given with a response
stands among the lines only if its name and its value can stand in a line and the name is not one
that the server gives itself.  A client that cuts the head at the first empty line, and the body by
its length, finds what was given, one response after the other.

## Main definitions

* `response` : the bytes of a response.
* `readReply`, `readReplies` : how a client reads one, and all of a connection.

## Main results

* `exists_head` : the head is cut into the lines that were written.
* `responses_read_back` : what was sent is read back.
-/

namespace Silt.Http

open List

variable {byte : UInt8} {line : List UInt8} {header : String × String}

/-- The reason phrase of a status. -/
def reason (status : UInt16) : String :=
  match status.toNat with
  | 100 => "Continue"
  | 200 => "OK"
  | 201 => "Created"
  | 202 => "Accepted"
  | 204 => "No Content"
  | 301 => "Moved Permanently"
  | 302 => "Found"
  | 303 => "See Other"
  | 304 => "Not Modified"
  | 307 => "Temporary Redirect"
  | 308 => "Permanent Redirect"
  | 400 => "Bad Request"
  | 401 => "Unauthorized"
  | 403 => "Forbidden"
  | 404 => "Not Found"
  | 405 => "Method Not Allowed"
  | 408 => "Request Timeout"
  | 409 => "Conflict"
  | 410 => "Gone"
  | 413 => "Payload Too Large"
  | 415 => "Unsupported Media Type"
  | 417 => "Expectation Failed"
  | 422 => "Unprocessable Content"
  | 429 => "Too Many Requests"
  | 431 => "Request Header Fields Too Large"
  | 500 => "Internal Server Error"
  | 501 => "Not Implemented"
  | 502 => "Bad Gateway"
  | 503 => "Service Unavailable"
  | 504 => "Gateway Timeout"
  -- A status without a phrase of its own has its class's.
  | n =>
    match n / 100 with
    | 1 => "Informational"
    | 2 => "Success"
    | 3 => "Redirection"
    | 4 => "Client Error"
    | _ => "Server Error"

/-- Whether a response of this status has a body. -/
def hasBody (status : UInt16) : Bool :=
  !((100 ≤ status && status ≤ 199) || status == 204 || status == 304)

/-- How a response is sent. -/
structure Sending where
  date : String
  close : Bool
  keepAlive : Bool
  headOnly : Bool

/-- Whether the name is one of those that the server gives. -/
def isOwn (name : String) : Bool :=
  ["content-length", "transfer-encoding", "connection", "date"].any (eqIgnoreAsciiCase name)

/-- Whether the text can be the value of a header. -/
def isPlain (value : String) : Bool :=
  (utf8 value).all fun byte => byte == 9 || (byte ≥ 32 && byte != 127)

/-- Whether the header is sent. -/
def stands (header : String × String) : Bool :=
  (!(utf8 header.1).isEmpty && (utf8 header.1).all isToken) && isPlain header.2 && !isOwn header.1

/-- The line of a header. -/
def fieldLine (header : String × String) : List UInt8 :=
  utf8 header.1 ++ (utf8 ": " ++ utf8 header.2)

/-- The bytes of a response. -/
def response (status : UInt16) (headers : List (String × String)) (body : List UInt8)
    (how : Sending) : List UInt8 :=
  let bodiless := !hasBody status
  utf8 "HTTP/1.1 " ++ (utf8 (toString status.toNat) ++ (utf8 " " ++ utf8 (reason status))) ++
  crlf ++
  (headers.filter stands).flatMap (fieldLine · ++ crlf) ++
  (if how.date.isEmpty then [] else fieldLine ("Date", how.date) ++ crlf) ++
  (if bodiless then [] else fieldLine ("Content-Length", toString body.length) ++ crlf) ++
  (if how.close then fieldLine ("Connection", "close") ++ crlf
    else if how.keepAlive then fieldLine ("Connection", "keep-alive") ++ crlf else []) ++
  crlf ++ if bodiless || how.headOnly then [] else body

/-! ### A client -/

/-- What stands before the first CRLF CRLF, and what follows it. -/
def cutHead : List UInt8 → Option (List UInt8 × List UInt8)
  | 13 :: 10 :: 13 :: 10 :: rest => some ([], rest)
  | byte :: rest => (cutHead rest).map fun (head, rest) => (byte :: head, rest)
  | [] => none

/-- The lines between the line ends. -/
def splitLines : List UInt8 → List (List UInt8)
  | 13 :: 10 :: rest => [] :: splitLines rest
  | byte :: rest => (splitLines rest).modifyHead (byte :: ·)
  | [] => [[]]

def decode (bytes : List UInt8) : Option String := String.fromUTF8? ⟨bytes.toArray⟩

/-- The number in decimal. -/
def decimal (bytes : List UInt8) : Option Nat :=
  (decode bytes).map fun digits => Nat.ofDigitChars 10 digits.toList 0

/-- The name before the colon, and the value behind it and a space. -/
def field (line : List UInt8) : Option (String × String) := do
  let name := line.takeWhile (· != 58)
  return (← decode name, ← decode (line.drop (name.length + 2)))

/-- A response as a client reads it. -/
structure Reply where
  status : UInt16
  headers : List (String × String)
  body : List UInt8

/-- Whether a client reads a body behind the head: not with an informational status, "No Content"
and "Not Modified". -/
def expectsBody (status : UInt16) : Bool :=
  status.toNat / 100 ≠ 1 && status ∉ [204, 304]

/-- The length of the body: that of the one `Content-Length`, where there is a body. -/
def bodyLength (status : UInt16) (fields : List (String × String)) : Option Nat :=
  match expectsBody status,
    fields.filter fun header => eqIgnoreAsciiCase header.1 "content-length" with
  | true, [header] => some (Nat.ofDigitChars 10 header.2.toList 0)
  | false, [] => some 0
  | _, _ => none

/-- The next response, and what follows it. -/
def readReply (bytes : List UInt8) : Option (Reply × List UInt8) := do
  let (head, rest) ← cutHead bytes
  let lines := splitLines head
  let status ← decimal ((lines.headD []).drop 9 |>.takeWhile (· != 32))
  let fields ← lines.tail.mapM field
  let length ← bodyLength (.ofNat status) fields
  if rest.length < length then none
  else return (⟨.ofNat status, fields.filter fun header => !isOwn header.1, rest.take length⟩,
    rest.drop length)

/-- All responses. -/
def readReplies : Nat → List UInt8 → Option (List Reply)
  | _, [] => some []
  | 0, _ => none
  | fuel + 1, bytes => do
    let (reply, rest) ← readReply bytes
    return reply :: (← readReplies fuel rest)

/-! ### Lines -/

/-- A line that ends with the next line end and is not empty. -/
def Clean (line : List UInt8) : Prop := line ≠ [] ∧ 13 ∉ line

theorem cutHead_cons (h : byte ≠ 13) (rest : List UInt8) :
    cutHead (byte :: rest) = (cutHead rest).map fun (head, rest) => (byte :: head, rest) := by
  rw [cutHead]
  exact fun rest' heq _ => h heq

theorem cutHead_append (h : 13 ∉ line) (rest : List UInt8) :
    cutHead (line ++ rest) = (cutHead rest).map fun (head, rest) => (line ++ head, rest) := by
  induction line with
  | nil => simp
  | cons byte line ih =>
    rw [mem_cons, not_or] at h
    rw [cons_append, cutHead_cons (Ne.symm h.1), ih h.2, Option.map_map]
    rfl

theorem splitLines_append (h : 13 ∉ line) (rest : List UInt8) :
    splitLines (line ++ (crlf ++ rest)) = line :: splitLines rest := by
  induction line with
  | nil => rfl
  | cons byte line ih =>
    rw [mem_cons, not_or] at h
    rw [cons_append, splitLines, ih h.2]
    · rfl
    · exact fun rest' heq _ => h.1 heq.symm

theorem splitLines_line (h : 13 ∉ line) : splitLines line = [line] := by
  induction line with
  | nil => rfl
  | cons byte line ih =>
    rw [mem_cons, not_or] at h
    rw [splitLines, ih h.2]
    · rfl
    · exact fun rest' heq _ => h.1 heq.symm

theorem exists_head {first : List UInt8} {lines : List (List UInt8)} (hf : Clean first)
    (h : ∀ line ∈ lines, Clean line) (rest : List UInt8) :
    ∃ head, cutHead ((first :: lines).flatMap (· ++ crlf) ++ (crlf ++ rest)) = some (head, rest) ∧
      splitLines head = first :: lines := by
  induction lines generalizing first with
  | nil =>
    refine ⟨first, ?_, splitLines_line hf.2⟩
    rw [flatMap_singleton, append_assoc, cutHead_append hf.2]
    simp [crlf, cutHead]
  | cons second lines ih =>
    obtain ⟨hs, hln⟩ := forall_mem_cons.mp h
    obtain ⟨head, hct, hsp⟩ := ih hs hln
    refine ⟨first ++ (crlf ++ head), ?_, by rw [splitLines_append hf.2, hsp]⟩
    obtain ⟨byte, second', rfl⟩ := exists_cons_of_ne_nil hs.1
    have hne : byte ≠ 13 := fun heq => hs.2 (heq ▸ mem_cons_self)
    set later := ((byte :: second') :: lines).flatMap (· ++ crlf) ++ (crlf ++ rest) with hl
    have hh : ∃ later', later = byte :: later' := ⟨_, rfl⟩
    obtain ⟨later', hl'⟩ := hh
    rw [flatMap_cons, append_assoc, append_assoc, cutHead_append hf.2, ← hl]
    have hc : cutHead (crlf ++ later) = some (crlf ++ head, rest) := by
      rw [hl'] at hct ⊢
      change cutHead (13 :: 10 :: byte :: later') = _
      rw [cutHead, cutHead_cons (by decide), hct]
      · rfl
      · intro rest' heq ht
        cases ht
        exact hne rfl
    rw [hc]
    rfl

/-! ### Texts -/

theorem expectsBody_eq (status : UInt16) : expectsBody status = hasBody status := by
  have hc : status.toNat / 100 = 1 ↔ 100 ≤ status ∧ status ≤ 199 := by
    rw [UInt16.le_iff_toNat_le, UInt16.le_iff_toNat_le]
    change _ ↔ 100 ≤ status.toNat ∧ status.toNat ≤ 199
    omega
  rw [Bool.eq_iff_iff]
  simp only [expectsBody, hasBody, ne_eq, hc]
  simp [and_assoc]

theorem decode_utf8 (s : String) : decode (utf8 s) = some s := by
  rw [decode, utf8, Array.toArray_toList, String.fromUTF8?, dif_pos s.isValidUTF8]
  rfl

theorem mem_utf8_toString {n : Nat} (h : byte ∈ utf8 (toString n)) :
    48 ≤ byte.toNat ∧ byte.toNat ≤ 57 := by
  have hd (c : Char) (hc : c ∈ Nat.toDigits 10 n) : 48 ≤ c.toNat ∧ c.toNat ≤ 57 := by
    have := Nat.isDigit_of_mem_toDigits (by decide) (by decide) hc
    rw [Char.isDigit, Bool.and_eq_true, decide_eq_true_iff, decide_eq_true_iff] at this
    exact ⟨UInt32.le_iff_toNat_le.mp this.1, UInt32.le_iff_toNat_le.mp this.2⟩
  obtain ⟨bytes, hp, ht⟩ := Ascii.exists_bytes fun c hc =>
    Nat.lt_of_le_of_lt (hd c hc).2 (by decide)
  have hb : utf8 (toString n) = bytes := by
    have hr : toString n = String.ofList (Ascii.text bytes) := by
      rw [ht]
      rfl
    rw [utf8, hr, String.toByteArray_ofList, Ascii.utf8Encode_text hp]
  rw [hb] at h
  exact hd (Char.ofUInt8 byte) (ht ▸ mem_map_of_mem h)

theorem not_mem_utf8_toString {n : Nat} (h : byte.toNat < 48) : byte ∉ utf8 (toString n) :=
  fun hm => absurd (mem_utf8_toString hm).1 (Nat.not_le.mpr h)

theorem ofDigitChars_toString (n : Nat) : Nat.ofDigitChars 10 (toString n).toList 0 = n := by
  simp_all

theorem not_mem_reason (status : UInt16) : 13 ∉ utf8 (reason status) := by
  rw [reason]
  split
  any_goals decide
  split <;> decide

theorem not_mem_of_isPlain {value : String} (h : isPlain value = true) : 13 ∉ utf8 value :=
  fun hm => absurd (all_eq_true.mp h 13 hm) (by decide)

/-- The names of lines: no line end and no colon stands in them. -/
def IsName (name : String) : Prop := 13 ∉ utf8 name ∧ 58 ∉ utf8 name

theorem isName_of_stands (h : stands header = true) : IsName header.1 := by
  simp only [stands, Bool.and_eq_true] at h
  exact ⟨fun hm => absurd (all_eq_true.mp h.1.1.2 13 hm) (by decide),
    fun hm => absurd (all_eq_true.mp h.1.1.2 58 hm) (by decide)⟩

theorem clean_fieldLine (hn : IsName header.1) (hv : 13 ∉ utf8 header.2) :
    Clean (fieldLine header) := by
  refine ⟨fun hnl => ?_, fun hm => ?_⟩
  · exact absurd (append_eq_nil_iff.mp (append_eq_nil_iff.mp hnl).2).1 (by decide)
  · rw [fieldLine, mem_append, mem_append] at hm
    rcases hm with hm | hm | hm
    · exact hn.1 hm
    · exact absurd hm (by decide)
    · exact hv hm

theorem field_fieldLine (hn : IsName header.1) : field (fieldLine header) = some header := by
  have hc : utf8 ": " = [58, 32] := by decide
  have ht : (fieldLine header).takeWhile (· != 58) = utf8 header.1 := by
    rw [fieldLine, hc, takeWhile_append_of_pos]
    · simp
    · intro byte hb
      rw [bne_iff_ne]
      rintro rfl
      exact hn.2 hb
  have hd : (fieldLine header).drop ((utf8 header.1).length + 2) = utf8 header.2 := by
    rw [fieldLine, hc, ← drop_drop, drop_left]
    rfl
  rw [field, ht, hd, decode_utf8, decode_utf8]
  rfl

theorem mapM_field {fields : List (String × String)} (h : ∀ header ∈ fields, IsName header.1) :
    (fields.map fieldLine).mapM field = some fields := by
  induction fields with
  | nil => rfl
  | cons header fields ih =>
    obtain ⟨hn, hf⟩ := forall_mem_cons.mp h
    rw [map_cons, mapM_cons, field_fieldLine hn, ih hf]
    rfl

/-! ### Responses -/

/-- A response to a request other than `HEAD`, with a date that can stand in a line. -/
structure Sent where
  status : UInt16
  headers : List (String × String)
  body : List UInt8
  how : Sending
  date_plain : isPlain how.date = true
  whole : how.headOnly = false

namespace Sent

variable {header : String × String}

variable (s : Sent)

def bytes : List UInt8 := response s.status s.headers s.body s.how

/-- The given headers that are sent. -/
def kept : List (String × String) := s.headers.filter stands

/-- The headers that the server gives. -/
def own : List (String × String) :=
  (if s.how.date.isEmpty then [] else [("Date", s.how.date)]) ++
  (if hasBody s.status then [("Content-Length", toString s.body.length)] else []) ++
  if s.how.close then [("Connection", "close")]
  else if s.how.keepAlive then [("Connection", "keep-alive")] else []

def statusLine : List UInt8 :=
  utf8 "HTTP/1.1 " ++ (utf8 (toString s.status.toNat) ++ (utf8 " " ++ utf8 (reason s.status)))

/-- The lines of the head. -/
def lines : List (List UInt8) := s.statusLine :: (s.kept ++ s.own).map fieldLine

def content : List UInt8 := if hasBody s.status then s.body else []

/-- What a client is to read. -/
def reply : Reply := ⟨s.status, s.kept, s.content⟩

theorem bytes_eq : s.bytes = s.lines.flatMap (· ++ crlf) ++ (crlf ++ s.content) := by
  have hw := s.whole
  simp only [bytes, response, lines, kept, own, content, statusLine, flatMap_cons, map_append,
    flatMap_append, flatMap_map, append_assoc, hw, Bool.or_false]
  cases hasBody s.status <;> cases s.how.date.isEmpty <;> cases s.how.close <;>
    cases s.how.keepAlive <;> simp

theorem isOwn_of_mem {name : String} (h : name ∈ ["Date", "Content-Length", "Connection"]) :
    IsName name ∧ isOwn name = true := by
  rw [mem_cons, mem_cons, mem_singleton] at h
  rcases h with rfl | rfl | rfl <;> exact ⟨⟨by decide, by decide⟩, by decide⟩

/-- The headers of the server are known by their names. -/
theorem own_spec (h : header ∈ s.own) :
    IsName header.1 ∧ 13 ∉ utf8 header.2 ∧ isOwn header.1 = true := by
  have hn : header.1 ∈ ["Date", "Content-Length", "Connection"] ∧ 13 ∉ utf8 header.2 := by
    have hd := not_mem_of_isPlain s.date_plain
    have hl : 13 ∉ utf8 (toString s.body.length) := not_mem_utf8_toString (by decide)
    have hc : 13 ∉ utf8 "close" ∧ 13 ∉ utf8 "keep-alive" := by decide
    rw [own, mem_append, mem_append] at h
    grind
  obtain ⟨hnm, ho⟩ := isOwn_of_mem hn.1
  exact ⟨hnm, hn.2, ho⟩

theorem kept_spec (h : header ∈ s.kept) :
    IsName header.1 ∧ 13 ∉ utf8 header.2 ∧ isOwn header.1 = false := by
  have hs := (mem_filter.mp h).2
  refine ⟨isName_of_stands hs, ?_, ?_⟩ <;> simp only [stands, Bool.and_eq_true] at hs
  · exact not_mem_of_isPlain hs.1.2
  · simpa using hs.2

theorem isName_of_mem (h : header ∈ s.kept ++ s.own) : IsName header.1 ∧ 13 ∉ utf8 header.2 := by
  rcases mem_append.mp h with h | h
  · exact ⟨(s.kept_spec h).1, (s.kept_spec h).2.1⟩
  · exact ⟨(s.own_spec h).1, (s.own_spec h).2.1⟩

theorem clean_statusLine : Clean s.statusLine := by
  refine ⟨fun hn => absurd (append_eq_nil_iff.mp hn).1 (by decide), fun hm => ?_⟩
  simp only [statusLine, mem_append] at hm
  rcases hm with hm | hm | hm | hm
  · exact absurd hm (by decide)
  · exact not_mem_utf8_toString (by decide) hm
  · exact absurd hm (by decide)
  · exact not_mem_reason s.status hm

/-- The head of a response is cut into its lines: no name and no value adds one. -/
theorem cutHead_bytes (rest : List UInt8) :
    ∃ head, cutHead (s.bytes ++ rest) = some (head, s.content ++ rest) ∧
      splitLines head = s.lines := by
  have hl (line : List UInt8) (h : line ∈ (s.kept ++ s.own).map fieldLine) : Clean line := by
    obtain ⟨header, hm, rfl⟩ := mem_map.mp h
    exact clean_fieldLine (s.isName_of_mem hm).1 (s.isName_of_mem hm).2
  rw [bytes_eq, append_assoc, append_assoc]
  exact exists_head s.clean_statusLine hl _

theorem filter_not_isOwn : (s.kept ++ s.own).filter (fun header => !isOwn header.1) = s.kept := by
  have hk : s.kept.filter (fun header => !isOwn header.1) = s.kept :=
    filter_eq_self.mpr fun header h => by rw [(s.kept_spec h).2.2]; rfl
  have ho : s.own.filter (fun header => !isOwn header.1) = [] :=
    filter_eq_nil_iff.mpr fun header h => by rw [(s.own_spec h).2.2]; exact Bool.false_ne_true
  rw [filter_append, hk, ho, append_nil]

theorem bodyLength_fields : bodyLength s.status (s.kept ++ s.own) = some s.content.length := by
  have hk : s.kept.filter (fun header => eqIgnoreAsciiCase header.1 "content-length") = [] := by
    refine filter_eq_nil_iff.mpr fun header h hl => ?_
    have ho := (s.kept_spec h).2.2
    rw [isOwn, any_cons, hl] at ho
    cases ho
  have ho : s.own.filter (fun header => eqIgnoreAsciiCase header.1 "content-length") =
      if hasBody s.status then [("Content-Length", toString s.body.length)] else [] := by
    have hd : eqIgnoreAsciiCase "Date" "content-length" = false := by decide
    have hl : eqIgnoreAsciiCase "Content-Length" "content-length" = true := by decide
    have hc : eqIgnoreAsciiCase "Connection" "content-length" = false := by decide
    rw [own]
    grind
  rw [bodyLength, expectsBody_eq, filter_append, hk, ho, nil_append, content]
  cases hasBody s.status
  · rfl
  · exact congrArg some (ofDigitChars_toString s.body.length)

theorem readReply_bytes (rest : List UInt8) :
    readReply (s.bytes ++ rest) = some (s.reply, rest) := by
  obtain ⟨head, hc, hs⟩ := s.cutHead_bytes rest
  have hst : decimal ((s.statusLine.drop 9).takeWhile (· != 32)) = some s.status.toNat := by
    have hd : s.statusLine.drop 9 =
        utf8 (toString s.status.toNat) ++ (utf8 " " ++ utf8 (reason s.status)) :=
      drop_left' (by decide)
    have ht : (utf8 (toString s.status.toNat) ++ (utf8 " " ++ utf8 (reason s.status))).takeWhile
        (· != 32) = utf8 (toString s.status.toNat) := by
      have hsp : utf8 " " = [32] := by decide
      rw [hsp, takeWhile_append_of_pos]
      · simp
      · intro byte hb
        rw [bne_iff_ne]
        rintro rfl
        exact not_mem_utf8_toString (by decide) hb
    rw [hd, ht, decimal, decode_utf8, Option.map_some, ofDigitChars_toString]
  have hf := mapM_field fun header h => (s.isName_of_mem h).1
  have hl : ¬(s.content ++ rest).length < s.content.length := by
    rw [length_append]
    omega
  simp only [readReply, hc, hs, lines, Option.bind_eq_bind, Option.bind_some, headD_cons,
    tail_cons, hst, hf, UInt16.ofNat_toNat, bodyLength_fields, if_neg hl,
    filter_not_isOwn, take_left, drop_left]
  rfl

theorem length_pos : 0 < s.bytes.length := by
  rw [bytes_eq, length_append, length_append, crlf, length_cons]
  omega

end Sent

/-- Responses on a connection.  What was sent is read back, one response after the other: the
status, the given headers that can be sent, and the body.  The head of each is cut into the lines
that were written: the line of the status, and one for each header. -/
theorem responses_read_back (sent : List Sent) :
    readReplies (sent.flatMap Sent.bytes).length (sent.flatMap Sent.bytes) =
        some (sent.map Sent.reply) ∧
      ∀ s ∈ sent, ∀ rest, ∃ head, cutHead (s.bytes ++ rest) = some (head, s.content ++ rest) ∧
        splitLines head = s.statusLine :: (s.headers.filter stands ++ s.own).map fieldLine := by
  refine ⟨?_, fun s _ rest => s.cutHead_bytes rest⟩
  have hr (fuel : Nat) (hf : (sent.flatMap Sent.bytes).length ≤ fuel) :
      readReplies fuel (sent.flatMap Sent.bytes) = some (sent.map Sent.reply) := by
    induction sent generalizing fuel with
    | nil => cases fuel <;> rfl
    | cons s sent ih =>
      have hp := s.length_pos
      rw [flatMap_cons, length_append] at hf
      obtain ⟨fuel, rfl⟩ : ∃ fuel', fuel = fuel' + 1 := ⟨fuel - 1, by omega⟩
      rw [flatMap_cons, readReplies, s.readReply_bytes, Option.bind_eq_bind, Option.bind_some]
      · dsimp only
        rw [ih fuel (by omega)]
        rfl
      · intro hn
        simp_all
  exact hr _ (Nat.le_refl _)

/-- Two responses: one with a body, kept open, and one that has none. -/
def helloAndNothing : List Sent :=
  [⟨200, [("X-Kind", "greeting"), ("Date", "never")], utf8 "hello", ⟨"", false, true, false⟩,
      by decide, rfl⟩,
    ⟨204, [], [], ⟨"", true, false, false⟩, by decide, rfl⟩]

theorem responses_read_back_helloAndNothing :
    readReplies (helloAndNothing.flatMap Sent.bytes).length
        (helloAndNothing.flatMap Sent.bytes) =
      some [⟨200, [("X-Kind", "greeting")], utf8 "hello"⟩, ⟨204, [], []⟩] :=
  (responses_read_back helloAndNothing).1

end Silt.Http
