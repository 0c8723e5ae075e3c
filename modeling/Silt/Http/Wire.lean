import Mathlib.Algebra.Group.Nat.Defs
import Silt.Lib.Pieces

/-!
# HTTP requests on the wire

How the server reads the requests of one connection, one after the other: the head, which a parser
takes apart, then a body of a given length or in chunks.  What has been read beyond the end of a
request is the start of the next one.

A connection is a source of bytes that come in pieces, one for each read of the socket.  The parser
of heads is a parameter (`Httparse`): its answer depends on the bytes up to the first empty line.

## Main definitions

* `Reader` : what has been read of the connection, and what is to come.
* `head`, `exactly`, `line`, `chunked` : the parts of a request.
* `next` : the next request.
* `buffered` : the next request, if all of it is there.
* `requests` : the requests of a connection, and how it ends.
-/

namespace Silt.Http

open Pieces

/-! ### The limits of the server -/

/-- The longest request head, and the longest trailer section of a chunked body. -/
def headMax : Nat := 64 * 1024

/-- The longest body. -/
def bodyMax : Nat := 10000000

/-- The longest method. -/
def methodMax : Nat := 32

/-- The longest line of a chunked body. -/
def chunkLineMax : Nat := 4 * 1024

/-- The most bytes of a chunked body that are not the body. -/
def chunkFramingMax : Nat := 1024 * 1024

/-- The most bytes that are looked through twice. -/
def lookedAt : Nat := 64 * 1024

/-! ### Requests and refusals -/

/-- A request, read whole. -/
structure Request where
  method : String
  target : String
  headers : List (String × String)
  body : List UInt8
  close : Bool
  http10 : Bool
  deriving DecidableEq

/-- Why a request is not served: the status to answer with, and a word for the response. -/
structure Refused where
  status : Nat
  why : String
  deriving DecidableEq

/-- What ends the reading of a request. -/
inductive Next where
  /-- The peer closed the connection. -/
  | ended
  | refused (why : Refused)
  /-- Reading or writing failed. -/
  | broken
  deriving DecidableEq

def badRequest : Refused := ⟨400, "Bad Request"⟩
def tooManyHeaders : Refused := ⟨431, "Too Many Headers"⟩
def headTooLarge : Refused := ⟨431, "Request Header Fields Too Large"⟩
def bodyTooLarge : Refused := ⟨413, "Payload Too Large"⟩
def badChunks : Refused := ⟨400, "Bad Request"⟩
def noRoom : Refused := ⟨503, "Service Unavailable"⟩
def expectationFailed : Refused := ⟨417, "Expectation Failed"⟩

/-- The reader of a connection. -/
abbrev Reader : Type := Source UInt8

/-- Either a value or the end of reading this request. -/
abbrev Step (α : Type) : Type := Reads Next UInt8 α

/-- The end of a line. -/
def crlf : List UInt8 := [13, 10]

/-! ### The parser of heads -/

/-- A head, taken apart. -/
structure Head where
  method : String
  target : String
  /-- The minor version: HTTP/1.`minor`. -/
  minor : Nat
  headers : List (String × String)

/-- Whether an empty line follows the line that ends here. -/
def emptyLine : List UInt8 → Option Nat
  | 10 :: 10 :: _ => some 2
  | 10 :: 13 :: 10 :: _ => some 3
  | _ => none

/-- Where the first empty line ends. -/
def headEnd : List UInt8 → Option Nat
  | [] => none
  | byte :: rest =>
    match emptyLine (byte :: rest) with
    | some n => some n
    | none => (headEnd rest).map (· + 1)

/-- What the parser says of some bytes. -/
inductive Parsed where
  /-- A head of that length. -/
  | complete (length : Nat) (head : Head)
  | incomplete
  | tooManyHeaders
  | wrong

/-- Whether a method can have this byte. -/
def isToken (byte : UInt8) : Bool :=
  (48 ≤ byte && byte ≤ 57) || (65 ≤ byte && byte ≤ 90) || (97 ≤ byte && byte ≤ 122) ||
    -- !#$%&'*+-.^_`|~
    [33, 35, 36, 37, 38, 39, 42, 43, 45, 46, 94, 95, 96, 124, 126].contains byte

/-- Whether what comes first is not the start of a method and a space. -/
def beginsNoRequest (buf : List UInt8) : Bool :=
  let begins := buf.take (methodMax + 1)
  let method := begins.takeWhile (· != 32)
  method.length > methodMax || begins.head? == some 32 || !method.all isToken

/-- The parser of heads.  Of bytes that start with a method and have an empty line, its answer
depends on those up to the end of that line, where a complete head ends.  (Bytes that start with an
empty line are not given to it.) -/
structure Httparse where
  parse : List UInt8 → Parsed
  upToEnd {bytes : List UInt8} (later : List UInt8) : beginsNoRequest bytes = false →
    (headEnd bytes).isSome → parse (bytes ++ later) = parse bytes
  complete_end {bytes : List UInt8} {length : Nat} {head : Head} : beginsNoRequest bytes = false →
    parse bytes = .complete length head → headEnd bytes = some length

/-! ### The head -/

/-- Whether an LF has no CR before it, or a CR no LF after it; `before` is the byte before. -/
def lone (before : Option UInt8) : List UInt8 → Bool
  | [] => false
  | byte :: rest =>
    (byte == 10 && before != some 13) || (byte == 13 && rest.head? != some 10) ||
      lone (some byte) rest

/-- The state of the loop that reads a head: whether an empty line before it was passed over, and
how far the buffer has been searched for its end. -/
structure Searching where
  passedOver : Bool
  searched : Nat

/-- The buffer without the empty line before the request line, if that is there and is the first
one. -/
def passOver (passedOver : Bool) (buf : List UInt8) : Bool × List UInt8 :=
  match passedOver, buf with
  | false, 13 :: 10 :: rest => (true, rest)
  | _, _ => (passedOver, buf)

/-- Whether the buffer is a CR, whose LF may still come, of the empty line before a request. -/
def mayPassOver (passedOver : Bool) (buf : List UInt8) : Bool := !passedOver && buf == [13]

/-- The head at the start of the buffer, which has an empty line. -/
def parseHead (parser : Httparse) (buf : List UInt8) : Except Next (Head × List UInt8) :=
  match parser.parse buf with
  | .complete length head =>
    if length > headMax then .error (.refused headTooLarge)
    else if lone none (buf.take length) then .error (.refused badRequest)
    else .ok (head, buf.drop length)
  | .tooManyHeaders => .error (.refused tooManyHeaders)
  | .incomplete | .wrong => .error (.refused badRequest)

/-- A look at the buffer for a head. -/
def lookForHead (parser : Httparse) : Look Next UInt8 Searching Head := fun s buf =>
  let (passedOver, buf) := passOver s.passedOver buf
  if !mayPassOver passedOver buf && beginsNoRequest buf then .inl (.error (.refused badRequest))
  else if (headEnd (buf.drop (min s.searched buf.length - 2))).isSome then
    .inl (parseHead parser buf)
  else if buf.length ≥ headMax then .inl (.error (.refused headTooLarge))
  else .inr (⟨passedOver, buf.length⟩, buf)

/-- The request line and the headers. -/
def head (parser : Httparse) : Step Head := fun r =>
  readOn .ended (lookForHead parser) r.pieces ⟨false, 0⟩ r.buf

/-! ### The parts of a body -/

/-- A look for `length` bytes. -/
def lookForBytes (length : Nat) : Look Next UInt8 Unit (List UInt8) := fun s buf =>
  if buf.length < length then .inr (s, buf)
  else .inl (.ok (buf.take length, buf.drop length))

/-- Exactly `length` bytes. -/
def exactly (length : Nat) : Step (List UInt8) := fun r =>
  readOn .ended (lookForBytes length) r.pieces () r.buf

/-- Whether the byte is a control byte other than a tab. -/
def isControl (byte : UInt8) : Bool := (byte < 32 && byte != 9) || byte == 127

/-- The line before an LF, without its CR. -/
def lineBefore (line : List UInt8) : Except Next (List UInt8) :=
  if line.getLast? != some 13 || line.dropLast.any isControl then .error (.refused badChunks)
  else .ok line.dropLast

/-- A look for a line of at most `limit` bytes. -/
def lookForLine (limit : Nat) (tooLong : Refused) : Look Next UInt8 Unit (List UInt8) :=
  fun s buf =>
    match buf.findIdx? (· == 10) with
    | some last =>
      -- the line, its CR, and the LF
      if last > limit + 1 then .inl (.error (.refused tooLong))
      else .inl ((lineBefore (buf.take last)).map fun line => (line, buf.drop (last + 1)))
    | none =>
      -- the line and its CR may be here, with the LF to come
      if buf.length > limit + 1 then .inl (.error (.refused tooLong)) else .inr (s, buf)

/-- A line of at most `limit` bytes, without its CRLF. -/
def line (limit : Nat) (tooLong : Refused) : Step (List UInt8) := fun r =>
  readOn .ended (lookForLine limit tooLong) r.pieces () r.buf

/-- The value of a hexadecimal digit. -/
def hexDigit (c : Char) : Option Nat :=
  if '0' ≤ c ∧ c ≤ '9' then some (c.toNat - 48)
  else if 'a' ≤ c ∧ c ≤ 'f' then some (c.toNat - 87)
  else if 'A' ≤ c ∧ c ≤ 'F' then some (c.toNat - 55)
  else none

/-- The size of a chunk that its line gives: hexadecimal digits, sixteen at most, before the
extensions. -/
def chunkSize (line : List UInt8) : Option Nat :=
  let digits := (String.fromUTF8? ⟨(line.takeWhile (· != 59)).toArray⟩).getD ""
  let digits := (digits.toList.reverse.dropWhile fun c => c == ' ' || c == '\t').reverse
  if digits.isEmpty || digits.length > 16 then none
  else (digits.mapM hexDigit).map fun values => values.foldl (fun n digit => n * 16 + digit) 0

section Body

variable (room : Nat → Bool)

/-- The trailers of a chunked body, `read` bytes of them so far, up to an empty line. -/
def trailers : Nat → Nat → Step Unit
  | 0, _ => throw .ended
  | fuel + 1, read => do
    let text ← line headMax headTooLarge
    if text.isEmpty then return ()
    else if read + text.length + 2 > headMax then throw (.refused headTooLarge)
    else trailers fuel (read + text.length + 2)

/-- The bytes of a chunk, and the line end after them. -/
def chunkBytes (size : Nat) : Step (List UInt8) := do
  let part ← exactly size
  let rest ← line 0 badChunks
  if rest.isEmpty then return part else throw (.refused badChunks)

/-- The chunks of a body, with the body and the framing so far. -/
def chunks : Nat → List UInt8 → Nat → Step (List UInt8)
  | 0, _, _ => throw .ended
  | fuel + 1, body, framing => do
    let text ← line chunkLineMax badChunks
    if framing + text.length + 4 > chunkFramingMax then throw (.refused badChunks)
    else
      match chunkSize text with
      | none => throw (.refused badChunks)
      | some 0 => return body
      | some size =>
        if size > bodyMax - body.length then throw (.refused bodyTooLarge)
        else if room size then do
          let part ← chunkBytes size
          chunks fuel (body ++ part) (framing + text.length + 4)
        else throw (.refused noRoom)

/-- A body in chunks.  Every chunk and every trailer takes a byte at least, so one more step than
there are bytes is enough. -/
def chunked : Step (List UInt8) := fun r => (do
  let body ← chunks room (r.items.length + 1) [] 0
  trailers (r.items.length + 1) 0
  return body : Step (List UInt8)) r

end Body

/-! ### What the headers say -/

/-- Whether the texts are the same but for the case of ASCII letters. -/
def eqIgnoreAsciiCase (a b : String) : Bool :=
  a.toList.map Char.toLower == b.toList.map Char.toLower

/-- The text without the characters at its ends that are as `p` says. -/
def trimMatches (p : Char → Bool) (text : List Char) : List Char :=
  ((text.dropWhile p).reverse.dropWhile p).reverse

/-- Whether the character is white space, in Unicode. -/
def isWhiteSpace (c : Char) : Bool :=
  let n := c.toNat
  (9 ≤ n && n ≤ 13) || n == 32 || n == 0x85 || n == 0xA0 || n == 0x1680 ||
    (0x2000 ≤ n && n ≤ 0x200A) || n == 0x2028 || n == 0x2029 || n == 0x202F || n == 0x205F ||
    n == 0x3000

/-- How long the body of a request is. -/
inductive Framing where
  | none
  | length (n : Nat)
  | chunked

/-- The length that a `Content-Length` gives. -/
def contentLength (text : List Char) : Except Next Framing :=
  if text.isEmpty || !text.all Char.isDigit then .error (.refused badRequest)
  else
    let n := text.foldl (fun n c => n * 10 + (c.toNat - 48)) 0
    if n < 2 ^ 64 then
      if n ≤ bodyMax then .ok (.length n) else .error (.refused bodyTooLarge)
    else if text.length > 15 then .error (.refused bodyTooLarge)
    else .error (.refused badRequest)

/-- The framing of the body of a request. -/
def framing (head : Head) : Except Next Framing :=
  let of (wanted : String) : List (List Char) :=
    (head.headers.filter fun header => eqIgnoreAsciiCase header.1 wanted).map fun header =>
      trimMatches (fun c => c == ' ' || c == '\t') header.2.toList
  match of "content-length", of "transfer-encoding" with
  | [], [] => .ok .none
  | [text], [] => contentLength text
  | [], [coding] =>
    if eqIgnoreAsciiCase (String.ofList coding) "chunked" && head.minor ≥ 1 then .ok .chunked
    else .error (.refused badRequest)
  | _, _ => .error (.refused badRequest)

/-- Whether the client waits for `100 Continue` before it sends the body. -/
def expectsContinue (head : Head) : Except Next Bool :=
  match head.headers.filter fun header => eqIgnoreAsciiCase header.1 "expect" with
  | [] => .ok false
  | [(_, expected)] =>
    if eqIgnoreAsciiCase (String.ofList (trimMatches isWhiteSpace expected.toList))
        "100-continue" then
      .ok (head.minor ≥ 1)
    else .error (.refused expectationFailed)
  | _ => .error (.refused expectationFailed)

/-- Whether the request names the host it is for once; HTTP/1.0 had no such header. -/
def namesHost (head : Head) : Bool :=
  let hosts := (head.headers.filter fun header => eqIgnoreAsciiCase header.1 "host").length
  !(hosts > 1 || (hosts == 0 && head.minor ≥ 1))

/-- Whether a `Connection` header has the token. -/
def asks (head : Head) (token : String) : Bool :=
  ((head.headers.filter fun header => eqIgnoreAsciiCase header.1 "connection").flatMap
    fun header => header.2.toList.splitOn ',').any
    fun part => eqIgnoreAsciiCase (String.ofList (trimMatches isWhiteSpace part)) token

/-- Whether the connection is to be closed after the response. -/
def closes (head : Head) : Bool :=
  if head.minor = 0 then !asks head "keep-alive" else asks head "close"

/-- The request that a head and a body make. -/
def Head.request (head : Head) (body : List UInt8) : Request :=
  { method := head.method, target := head.target, headers := head.headers, body,
    close := closes head, http10 := head.minor == 0 }

/-! ### Requests -/

section Next

variable (parser : Httparse) (room : Nat → Bool)

/-- The body is about to be read: `beforeBody` is told whether the client waits, which it does not
if something is here already, and may fail. -/
def announce (beforeBody : Bool → Bool) (waits : Bool) : Step Unit := do
  let r ← get
  if beforeBody (waits && r.buf.isEmpty) then return () else throw .broken

/-- The body of a request. -/
def readBody (beforeBody : Bool → Bool) (waits : Bool) : Framing → Step (List UInt8)
  | .none | .length 0 => return []
  | .length length =>
    if room length then do
      announce beforeBody waits
      exactly length
    else throw (.refused noRoom)
  | .chunked => do
    announce beforeBody waits
    chunked room

/-- The next request. -/
def next (beforeBody : Bool → Bool) : Step Request := do
  let head ← head parser
  let framing ← framing head
  if namesHost head then do
    let waits ← expectsContinue head
    let body ← readBody room beforeBody waits framing
    return head.request body
  else throw (.refused badRequest)

/-- The next request or its refusal, if all of it is among the bytes that were read already. -/
def buffered (r : Reader) : Option (Except Next (Request × Reader)) :=
  if r.buf.isEmpty || r.buf.length > lookedAt then none
  else
    -- a copy with nothing behind it; what is read already is held already: no room is asked
    match next parser (fun _ => true) (fun waits => !waits) ⟨r.buf, []⟩ with
    | .ok (request, ahead) => some (.ok (request, ⟨ahead.buf, r.pieces⟩))
    | .error (.refused why) => some (.error (.refused why))
    | .error _ => none

/-- The next request, with or without a call of `buffered` first. -/
def nextAfter (first : Bool) : Step Request := fun r =>
  if first then (buffered parser r).getD (next parser room (fun _ => true) r)
  else next parser room (fun _ => true) r

/-- The requests of a connection, and what ends it.  `first` says before which of them `buffered`
is called. -/
def requestsFrom (first : Nat → Bool) : Nat → Nat → Reader → List Request × Next
  | 0, _, _ => ([], .ended)
  | fuel + 1, n, r =>
    match nextAfter parser room (first n) r with
    | .error e => ([], e)
    | .ok (request, r) =>
      let (requests, e) := requestsFrom first fuel (n + 1) r
      (request :: requests, e)

/-- The requests of a connection.  A request takes a byte at least, so one more step than there
are bytes is enough. -/
def requests (first : Nat → Bool) (r : Reader) : List Request × Next :=
  requestsFrom parser room first (r.items.length + 1) 0 r

end Next

end Silt.Http
