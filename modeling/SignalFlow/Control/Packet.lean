import SignalFlow.Control.Value
import SignalFlow.Json.Token

/-!
# Metadata packets

A packet is a set of named values that travels as a JSON object. The kind of a value is not
written: a truth value is a switch, a number without sign, fraction and exponent that fits
32 bits is a whole number, every other number is a double, and a text is a text. Null, arrays
and objects are no values.
-/

namespace SignalFlow.Control

open SignalFlow.Json SignalFlow.Numeric

/-- Named values. -/
abbrev Packet := NameMap Value

def Value.writeJson : Value → List Char
  | .bool b => if b then "true".toList else "false".toList
  | .uint n => Nat.toDigits 10 n.toNat
  | .double x => writeDouble x
  | .text s => quote s.toList

def Kind.writeJson (kind : Kind) : List Char :=
  quote kind.name.toList

def writeMember (member : String × Value) : List Char :=
  quote member.1.toList ++ ':' :: member.2.writeJson

/-- The members of an object with commas between them. -/
def writeMembers : List (String × Value) → List Char
  | [] => []
  | [m] => writeMember m
  | m :: rest => writeMember m ++ ',' :: writeMembers rest

/-- A packet in JSON, without blanks and in the order of the names. -/
def Packet.writeJson (packet : Packet) : List Char :=
  '\x7b' :: (writeMembers packet.entries ++ ['\x7d'])

def Value.ofNumber : Number → Value
  | .natural n =>
    if n < UInt32.size then .uint (UInt32.ofNat n) else .double (Binary.ofNat binary64 n)
  | .real x => .double x

/-- The value that a token is, or what is wrong with it, `rest` being the tokens behind it
and `depth` the number of objects around it. -/
def Value.ofToken (depth : Nat) (rest : List Token) : Token → Except Problem Value
  | .truth b => .ok (.bool b)
  | .number n => .ok (.ofNumber n)
  | .text s => .ok (.text (String.ofList s))
  | .null => .error .unfit
  | .beginArray => .error (unfitNested depth .array rest)
  | .beginObject => .error (unfitNested depth .object rest)
  | .defect _ problem => .error problem
  | .endObject | .endArray | .colon | .comma => .error .malformed

/-- Nothing may stand behind a value. -/
def atEnd {α : Type} (value : α) : List Token → Except Problem α
  | [] => .ok value
  | _ :: _ => .error .malformed

def Value.readJson (s : List Char) : Except Problem Value :=
  match tokens s with
  | [] => .error .ended
  | token :: rest =>
    match Value.ofToken 0 rest token with
    | .ok value => atEnd value rest
    | .error problem => .error problem

/-- Reads the members of an object up to its end: the packet that holds them on top of those
read before, and the tokens behind. -/
def readMembers (first : Bool) (packet : Packet) :
    List Token → Except Problem (Packet × List Token)
  | [] => .error .ended
  | .endObject :: rest => if first then .ok (packet, rest) else .error .malformed
  | [.text _] => .error .ended
  | [.text _, .colon] => .error .ended
  | .text name :: .colon :: token :: rest =>
    match Value.ofToken 1 rest token with
    | .error problem => .error problem
    | .ok value =>
      let packet := packet.insert (String.ofList name) value
      match rest with
      | [] => .error .ended
      | .endObject :: rest => .ok (packet, rest)
      | .comma :: rest => readMembers false packet rest
      | _ => .error .malformed
  | .defect true problem :: _ => .error problem
  | _ => .error .malformed

/-- Reads a packet. Of a repeated name the last value stays. -/
def Packet.readJson (s : List Char) : Except Problem Packet :=
  match tokens s with
  | [] => .error .ended
  | .beginObject :: rest =>
    match readMembers true .empty rest with
    | .error problem => .error problem
    | .ok (packet, rest) => atEnd packet rest
  | .null :: _ | .truth _ :: _ | .number _ :: _ | .text _ :: _ | .beginArray :: _ => .error .unfit
  | .defect _ problem :: _ => .error problem
  | _ => .error .malformed

/-- Reads the tokens of a kind that stands as the only member of an object, its value being
null. -/
def Kind.readMember : List Token → Except Problem Kind
  | [] => .error .ended
  | .text name :: rest =>
    match Kind.ofName? (String.ofList name), rest with
    | none, _ => .error .unfit
    | some _, [] => .error .ended
    | some _, [.colon] => .error .ended
    | some _, [.colon, .null] => .error .ended
    | some kind, .colon :: .null :: .endObject :: rest => atEnd kind rest
    | some _, .colon :: .defect _ problem :: _ => .error problem
    | some _, .colon :: .truth _ :: _ => .error .unfit
    | some _, .colon :: .number _ :: _ => .error .unfit
    | some _, .colon :: .text _ :: _ => .error .unfit
    | some _, .colon :: .beginArray :: _ => .error .unfit
    | some _, .colon :: .beginObject :: _ => .error .unfit
    | some _, _ => .error .malformed
  | .defect _ problem :: _ => .error problem
  | .null :: _ | .truth _ :: _ | .number _ :: _ | .beginArray :: _ | .beginObject :: _ =>
    .error .unfit
  | _ => .error .malformed

/-- Reads a kind: its name as a text, or as the only member of an object. -/
def Kind.readJson (s : List Char) : Except Problem Kind :=
  match tokens s with
  | [] => .error .ended
  | .text name :: rest =>
    match Kind.ofName? (String.ofList name) with
    | none => .error .unfit
    | some kind => atEnd kind rest
  | .beginObject :: rest => Kind.readMember rest
  | .defect true problem :: _ => .error problem
  | _ => .error .malformed

end SignalFlow.Control
