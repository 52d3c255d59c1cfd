import LspFramework.Lib.Loop
import LspFramework.Json.Stringify
import LspFramework.Json.Parser
import LspFramework.Jsonrpc.Message
import LspFramework.Connection.Header
import LspFramework.Connection.Reader

/-!
# Reading and writing messages

`Connection::readMessage` with the two nested loops over the header, and `writeMessage` with the
frame it writes.  The loops need not end, so the functions around them take fuel and answer `none`
when it runs out.  `Ending` lists how `readMessage` can leave: with a message or a
`ConnectionError`, with an exception of the standard library, or not at all because the process
terminates.
-/

namespace Lsp.Connection

open Chars Lsp.Jsonrpc

/-! ## Messages -/

/-- `Connection::Message` -/
inductive Message where
  | single (message : Jsonrpc.Message)
  | batch (messages : MessageBatch)

/-- The length of the longest string: `std::string::max_size()`, or less where memory ends earlier. -/
structure Platform where
  maxSize : Nat
  maxSize_le : maxSize ≤ sizeMax

inductive Ending where
  | message (message : Message)
  | error (e : ConnectionError)
  | throws (e : StdException)
  | terminates
  | fault (f : Json.Fault)

/-- `readMessage` returns, with a message or with an error. -/
def Ending.Returns : Ending → Prop
  | .message _ => True
  | .error _ => True
  | _ => False

/-! ## Reading the header -/

/-- One round of the loop of `readNextMessageHeaderField`. -/
def lineTurn (st : InputReader × Bytes) :
    Loop.Turn (InputReader × Bytes) (Except ConnectionError Bytes × InputReader) :=
  let p := st.1.peek
  if p.1 ≠ chr '\r' then
    let g := p.2.get
    if g.1 = chr '\n' then
      .done (.error (bytes "Protocol: Unexpected '\\n' in header field, expected '\\r\\n'"), g.2)
    else .next (g.2, st.2 ++ [g.1])
  else .done (.ok st.2, p.2)

/-- `reader.get() != '\r' || reader.get() != '\n'` -/
def lacksCRLF (reader : InputReader) : Bool × InputReader :=
  let g := reader.get
  if g.1 ≠ chr '\r' then (true, g.2)
  else
    let g := g.2.get
    (g.1 ≠ chr '\n', g.2)

/-- `readNextMessageHeaderField` behind its loop. -/
def endHeaderField (header : MessageHeader) :
    Except ConnectionError Bytes × InputReader → Except ConnectionError MessageHeader × InputReader
  | (.error e, reader) => (.error e, reader)
  | (.ok lineData, reader) =>
    match parseHeaderValue header lineData with
    | .error e => (.error e, reader)
    | .ok header =>
      let l := lacksCRLF reader
      if l.1 then (.error (bytes "Protocol: Expected header field to be terminated by '\\r\\n'"), l.2)
      else (.ok header, l.2)

def readNextMessageHeaderField (fuel : Nat) (header : MessageHeader) (reader : InputReader) :
    Option (Except ConnectionError MessageHeader × InputReader) :=
  let p := reader.peek
  if p.1 = Eof then some (.error (bytes "Connection lost"), p.2)
  else (Loop.run lineTurn fuel (p.2, [])).map (endHeaderField header)

def readMessageHeader : Nat → MessageHeader → InputReader →
    Option (Except ConnectionError MessageHeader × InputReader)
  | 0, _, _ => none
  | fuel + 1, header, reader =>
    let p := reader.peek
    if p.1 ≠ chr '\r' then
      (readNextMessageHeaderField fuel header p.2).bind fun
        | (.error e, reader) => some (.error e, reader)
        | (.ok header, reader) => readMessageHeader fuel header reader
    else
      let l := lacksCRLF p.2
      if l.1 then some (.error (bytes "Protocol: Expected header to be terminated by '\\r\\n'"), l.2)
      else some (.ok header, l.2)

/-! ## Reading a message -/

/-- `content.resize(contentLength)` and the read into it, which leaves NUL where it stores nothing. -/
def readBody (platform : Platform) (header : MessageHeader) (reader : InputReader) :
    Except Ending Bytes × InputReader :=
  if platform.maxSize < header.contentLength then (.error (.throws .lengthError), reader)
  else
    let res := reader.read header.contentLength
    match res.1.2 with
    | some e => (.error (.error e), res.2)
    | none => (.ok (res.1.1 ++ List.replicate (header.contentLength - res.1.1.length) 0), res.2)

/-- `readMessage` between the header and the end of the read lock. -/
def endFrame (platform : Platform) :
    Except ConnectionError MessageHeader × InputReader → Except Ending (MessageHeader × Bytes) × Stream
  | (.error e, reader) => (.error (.error e), reader.stream)
  | (.ok header, reader) =>
    match readBody platform header reader with
    | (.error e, reader) => (.error e, reader.stream)
    | (.ok content, reader) => (.ok (header, content), reader.stream)

/-- The part of `readMessage` under the read lock: the header and the content of one frame. -/
def readFrame (platform : Platform) (fuel : Nat) (stream : Stream) :
    Option (Except Ending (MessageHeader × Bytes) × Stream) :=
  let p := (InputReader.mk stream none).peek
  if p.1 = Eof then some (.error (.error (bytes "Connection lost")), p.2.stream)
  else (readMessageHeader fuel {} p.2).map (endFrame platform)

def errorReply (code : Json.Integer) (message : Bytes) : Jsonrpc.Message :=
  .response (createErrorResponse .null code message none)

/-- `what()` of an exception as a C string, which ends at a NUL. -/
def what (message : Bytes) : Bytes := message.takeWhile (· != 0)

/-- What `readMessage` makes of a conversion to a message, with the messages it writes. -/
def endingOf {α : Type} (f : α → Message) : Except Failure α → Ending × List Jsonrpc.Message
  | .ok a => (.message (f a), [])
  | .error (.protocolError e) => (.error (what e), [errorReply Error.InvalidRequest (what e)])
  | .error .badAccess => (.terminates, [])

/-- The part of `readMessage` behind the read lock. -/
def decodeContent (header : MessageHeader) (content : Bytes) : Ending × List Jsonrpc.Message :=
  match verifyContentType header.contentType with
  | .error e => (.error e, [])
  | .ok () =>
    match Json.parse content with
    | .error (.error e) => (.error (what e.message), [errorReply Error.ParseError (what e.message)])
    | .error (.throws e) => (.throws e, [])
    | .error (.fault f) => (.fault f, [])
    | .ok (.object ms) => endingOf .single (messageFromJson ms)
    | .ok (.array vs) => endingOf .batch (messageBatchFromJson vs)
    | .ok _ =>
      let error := bytes "Message must be a json object or array"
      (.error error, [errorReply Error.InvalidRequest error])

/-- How `readMessage` ends, the content it took, the stream behind it and the messages it wrote. -/
structure ReadResult where
  ending : Ending
  content : Option Bytes
  stream : Stream
  written : List Jsonrpc.Message

def endMessage : Except Ending (MessageHeader × Bytes) × Stream → ReadResult
  | (.error e, stream) => ⟨e, none, stream, []⟩
  | (.ok (header, content), stream) =>
    let d := decodeContent header content
    ⟨d.1, some content, stream, d.2⟩

def readMessage (platform : Platform) (fuel : Nat) (stream : Stream) : Option ReadResult :=
  (readFrame platform fuel stream).map endMessage

/-- A reader that calls `readMessage` as often as given. -/
def readMessages (platform : Platform) (fuel : Nat) : Nat → Stream → Option (List ReadResult)
  | 0, _ => some []
  | k + 1, stream =>
    (readMessage platform fuel stream).bind fun result =>
      (readMessages platform fuel k result.stream).map (result :: ·)

/-! ## Writing a message -/

def Message.toJson : Message → Json.Value
  | single message => .object (messageToJson message)
  | batch messages => .array (messageBatchToJson messages)

/-- The bytes `writeMessageData` hands to `Stream::write`. -/
def frame (content : Bytes) : Bytes := messageHeaderString { contentLength := content.length } ++ content

/-- A content that `writeMessage` may write for a message: `json::stringify` in some order of the
members of its objects. -/
def ContentOf (message : Message) (content : Bytes) : Prop :=
  ∃ json, Json.Value.Reordered message.toJson json ∧ content = Json.stringify json false

end Lsp.Connection
