/-
Terminal control sequences. Output for a terminal mixes text with sequences that start at the
escape character. `Scan` is the state of a terminal's parser, which says for each character what it
is part of, and there are two ways to take the sequences out of a text:

- `withoutControls` keeps what a terminal shows, and of the control characters the line feed alone;
- `forStream` is for a stream that is no terminal: it keeps blanks too, and characters from
  U+0080 on even if they are control characters, and it reads on in plain text once a blank inside
  an escape sequence has been kept.

A terminal reads bytes. That matters for the strings that a byte, the terminator, ends: a character
with that byte in its encoding ends them too, and leaves the rest of its bytes behind.
-/
namespace Exprc.Text

/-! ## The parser of a terminal -/

/-- Where the parser of a terminal stands. -/
inductive Scan where
  /-- In plain text. -/
  | ground
  /-- Behind an escape character. -/
  | escape
  /-- Behind an escape character and an intermediate one. -/
  | intermediate
  /-- In the parameters of a control sequence. -/
  | parameters
  /-- In an operating system command, which a bell ends. -/
  | command
  /-- At the beginning of a device control string. -/
  | deviceEntry
  /-- In the parameters of a device control string. -/
  | deviceParameters
  /-- Behind an intermediate character of a device control string. -/
  | deviceIntermediate
  /-- In the body of a device control string, which the terminator ends. -/
  | deviceBody
  /-- In another control string. -/
  | controlString
deriving DecidableEq, Repr

/-- Whether a code point lies in a range. -/
def within (low high : Nat) (c : Char) : Bool := low ≤ c.toNat && c.toNat ≤ high

/-- The byte that ends strings. -/
def terminator : UInt8 := 0x9c

/-- The bytes behind the terminator in the encoding of a character, if the terminator is there. -/
def behindTerminator? (c : Char) : Option (List UInt8) :=
  match (String.utf8EncodeChar c).dropWhile (· != terminator) with
  | [] => none
  | _ :: rest => some rest

/-- Whether a character ends a string that the terminator ends. -/
def terminates (c : Char) : Bool := (behindTerminator? c).isSome

/-- Where an escape character's next character leads. -/
def Scan.afterEscape (c : Char) : Scan :=
  if within 0x20 0x2f c then .intermediate
  else if c = '[' then .parameters
  else if c = ']' then .command
  else if c = 'P' then .deviceEntry
  else if c = 'X' || c = '^' || c = '_' then .controlString
  else if within 0x30 0x7e c then .ground
  else .escape

/-- Where a character leads at the beginning of a device control string. -/
def Scan.afterDeviceEntry (c : Char) : Scan :=
  if within 0x20 0x2f c then .deviceIntermediate
  else if within 0x30 0x3f c then .deviceParameters
  else if within 0x40 0x7e c then .deviceBody
  else .deviceEntry

/-- Where a character leads in the parameters of a device control string. A misplaced parameter
begins the body as well, since neither is shown. -/
def Scan.afterDeviceParameter (c : Char) : Scan :=
  if within 0x20 0x2f c then .deviceIntermediate
  else if within 0x3c 0x7e c then .deviceBody
  else .deviceParameters

/-- The state behind one more character. -/
def Scan.next (state : Scan) (c : Char) : Scan :=
  if c = '\x1b' then .escape
  else if c = '\x18' || c = '\x1a' then .ground
  else match state with
    | .ground => .ground
    | .escape => afterEscape c
    | .intermediate => if within 0x30 0x7e c then .ground else .intermediate
    | .parameters => if within 0x40 0x7e c then .ground else .parameters
    | .command => if c = '\x07' then .ground else .command
    | .deviceEntry => afterDeviceEntry c
    | .deviceParameters => afterDeviceParameter c
    | .deviceIntermediate => if within 0x30 0x7e c then .deviceBody else .deviceIntermediate
    | .deviceBody => if terminates c then .ground else .deviceBody
    | .controlString => .controlString

/-- Whether a parser stands in a sequence that control characters do not belong to. A control
character there acts as in plain text. -/
def Scan.isInterruptible : Scan → Bool
  | .escape | .intermediate | .parameters => true
  | _ => false

/-! ## What a terminal shows -/

/-- What a terminal shows for a byte that is no part of a character: the replacement character, or
nothing if the byte is a control character by itself. -/
def strayByte? (b : UInt8) : Option Char := if b < 0xa0 then none else some '\ufffd'

/-- What a terminal shows for a character that it reads in a given state. -/
def Scan.shows (state : Scan) (c : Char) : List Char :=
  match state with
  | .ground => if c = '\n' || !(within 0 0x1f c || within 0x80 0x9f c) then [c] else []
  | .deviceBody => ((behindTerminator? c).getD []).filterMap strayByte?
  | state => if state.isInterruptible && c = '\n' then [c] else []

/-- What a terminal shows for a text that it reads from a given state on. -/
def Scan.shown (state : Scan) : List Char → List Char
  | [] => []
  | c :: cs => state.shows c ++ (state.next c).shown cs

/-- What a terminal shows for a text. -/
def withoutControls (text : String) : String := String.ofList (Scan.ground.shown text.toList)

/-! ## What goes to a stream that is no terminal -/

/-- Whether a character is one of the blanks among the control characters. -/
def isControlBlank (c : Char) : Bool := c = '\t' || c = '\n' || c = '\x0c' || c = '\r'

/-- Whether a stream takes a character in plain text. -/
def isStreamText (c : Char) : Bool := within 0x20 0x7e c || 0x80 ≤ c.toNat || isControlBlank c

/-- Whether a stream takes a character that is read in a given state; `reading` says that the
character before it was taken. -/
def Scan.streams (state : Scan) (reading : Bool) (c : Char) : Bool :=
  isStreamText c && (reading || state == .ground || (state.isInterruptible && isControlBlank c))

/-- The state behind one more character in a text for a stream, in which the terminator ends every
control string. -/
def Scan.nextInStream (state : Scan) (c : Char) : Scan :=
  if state = .controlString && terminates c then .ground else state.next c

/-- What a stream takes of a text that is read from a given state on. A character that is taken
leaves the state as it is, except that one beyond U+007F leads back to plain text. -/
def Scan.streamed (state : Scan) (reading : Bool) : List Char → List Char
  | [] => []
  | c :: cs =>
    if state.streams reading c then
      c :: (if c.toNat < 0x80 then state else .ground).streamed true cs
    else (state.nextInStream c).streamed false cs

/-- What a stream that is no terminal takes of a text. -/
def forStream (text : String) : String := String.ofList (Scan.ground.streamed true text.toList)

end Exprc.Text
