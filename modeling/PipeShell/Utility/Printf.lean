import PipeShell.Bytes

/-! Texts with escapes, and formats with directives that are filled from arguments. -/
namespace PipeShell.Utility

structure EscapeStyle where
  /-- a backslash, an x and two hexadecimal digits -/
  hex : Bool
  /-- three octal digits may follow a zero -/
  longOctal : Bool
  deriving DecidableEq, Repr

/-- A piece of a text: bytes, or the point where the output ends. -/
inductive Piece
  | bytes (s : Bytes)
  | stop
  deriving DecidableEq, Repr

namespace EscapeStyle

def isOctal (c : UInt8) : Bool := 48 ≤ c && c ≤ 55

def hexValue? (c : UInt8) : Option Nat :=
  if 48 ≤ c ∧ c ≤ 57 then some (c - 48).toNat
  else if 97 ≤ c ∧ c ≤ 102 then some (c - 87).toNat
  else if 65 ≤ c ∧ c ≤ 70 then some (c - 55).toNat
  else none

def letter? (c : UInt8) : Option UInt8 :=
  [(97, 7), (98, 8), (101, 27), (102, 12), (110, 10), (114, 13), (116, 9), (118, 11),
    (92, 92)].lookup c

def escape (style : EscapeStyle) (s : Bytes) : Piece × Bytes :=
  match s with
  | [] => (.bytes [Byte.backslash], [])
  | c :: r =>
    if c = 99 then (.stop, [])
    else match letter? c with
      | some b => (.bytes [b], r)
      | none =>
        if isOctal c then
          let s := if style.longOctal && c == Byte.zero then r else s
          let digits := (s.take 3).takeWhile isOctal
          let value := digits.foldl (fun n d => n * 8 + (d - Byte.zero).toNat) 0
          (.bytes [value.toUInt8], s.drop digits.length)
        else if style.hex && c == 120 then
          let digits := (r.take 2).filterMap hexValue?
          if (r.head?.bind hexValue?).isNone then (.bytes [Byte.backslash, c], r)
          else
            let n := if (r.take 2).all fun d => (hexValue? d).isSome then digits.length else 1
            (.bytes [((digits.take n).foldl (fun v d => v * 16 + d) 0).toUInt8], r.drop n)
        else (.bytes [Byte.backslash, c], r)

def expand (style : EscapeStyle) (s : Bytes) : Bytes × Bool := go s.length s []
where
  go : Nat → Bytes → Bytes → Bytes × Bool
    | 0, _, done => (done.reverse, false)
    | n + 1, s, done => match s with
      | [] => (done.reverse, false)
      | c :: r =>
        if c = Byte.backslash then
          match style.escape r with
          | (.stop, _) => (done.reverse, true)
          | (.bytes b, r) => go n r (b.reverse ++ done)
        else go n r (c :: done)

end EscapeStyle

inductive Directive
  | text (s : Bytes)
  | stop
  | conversion (left zeros : Bool) (width : Nat) (precision : Option Nat) (letter : UInt8)
  | invalid
  deriving DecidableEq, Repr

namespace Directive

def letters : Bytes := [98, 99, 100, 105, 111, 115, 117, 120, 88]

def read (s : Bytes) : Directive × Bytes :=
  let flags := s.takeWhile fun c => c = Byte.minus ∨ c = Byte.zero
  let s := s.drop flags.length
  let width := s.takeWhile Byte.isDigit
  let s := s.drop width.length
  let (precision, s) : Option Nat × Bytes := match s with
    | 46 :: r => (some (Bytes.leadingNat r), r.dropWhile Byte.isDigit)
    | _ => (none, s)
  match s with
  | [] => (.invalid, [])
  | c :: r =>
    if c = 37 then (.text [37], r)
    else if c ∈ letters then
      (.conversion (Byte.minus ∈ flags) (Byte.zero ∈ flags) (Bytes.leadingNat width) precision c, r)
    else (.invalid, r)

def ofFormat (style : EscapeStyle) (s : Bytes) : List Directive := go s.length s
where
  go : Nat → Bytes → List Directive
    | 0, _ => []
    | n + 1, s => match s with
      | [] => []
      | 92 :: 34 :: r => .text [34] :: go n r
      | 92 :: r => match style.escape r with
        | (.stop, _) => [.stop]
        | (.bytes b, r) => .text b :: go n r
      | 37 :: r =>
        let (d, r) := read r
        d :: go n r
      | c :: r => .text [c] :: go n r

def takesArgument : Directive → Bool
  | conversion .. => true
  | _ => false

end Directive

structure Printed where
  output : List Bytes
  /-- the arguments that were no numbers where numbers were asked for -/
  notNumbers : List Bytes
  isInvalid : Bool
  isStopped : Bool
  deriving DecidableEq, Repr

namespace Printf

def pad (left : Bool) (width : Nat) (fill : UInt8) (s : Bytes) : Bytes :=
  let filling := List.replicate (width - s.length) fill
  if left then s ++ filling else filling ++ s

def digits (base n : Nat) (upper : Bool) : Bytes :=
  (Nat.toDigits base n).map fun c => (if upper then c.toUpper else c).toNat.toUInt8

def number (s : Bytes) : Int × Bool :=
  match s with
  | [] => (0, true)
  | 39 :: c :: _ => (c.toNat, true)
  | 34 :: c :: _ => (c.toNat, true)
  | _ =>
    let unsigned := match s with
      | 45 :: r => r
      | 43 :: r => r
      | _ => s
    let value : Int := Bytes.leadingNat unsigned
    (if s.head? = some Byte.minus then -value else value,
      unsigned ≠ [] && unsigned.all Byte.isDigit)

def convert (style : EscapeStyle) (left zeros : Bool) (width : Nat) (precision : Option Nat)
    (letter : UInt8) (argument : Bytes) (p : Printed) : Printed :=
  let add (s : Bytes) (p : Printed) : Printed := { p with output := s :: p.output }
  let cut (s : Bytes) : Bytes := match precision with
    | some n => s.take n
    | none => s
  if letter = 115 then add (pad left width Byte.space (cut argument)) p
  else if letter = 98 then
    let (s, stopped) := style.expand argument
    { add (pad left width Byte.space (cut s)) p with isStopped := stopped }
  else if letter = 99 then add (pad left width Byte.space (argument.take 1)) p
  else
    let (value, whole) := number argument
    let magnitude := match letter with
      | 111 => digits 8 value.toNat false
      | 120 => digits 16 value.toNat false
      | 88 => digits 16 value.toNat true
      | _ => digits 10 value.natAbs false
    let sign : Bytes := if value < 0 then [Byte.minus] else []
    let magnitude := pad false (precision.getD 0) Byte.zero magnitude
    let text :=
      if zeros && !left && precision.isNone then
        sign ++ pad false (width - sign.length) Byte.zero magnitude
      else pad left width Byte.space (sign ++ magnitude)
    let p := add text p
    if whole then p else { p with notNumbers := argument :: p.notNumbers }

/-- Goes through a format once, and gives the arguments that are left. A missing argument is
empty. -/
def once (style : EscapeStyle) : List Directive → List Bytes → Printed → Printed × List Bytes
  | [], arguments, p => (p, arguments)
  | d :: ds, arguments, p =>
    if p.isStopped || p.isInvalid then (p, [])
    else match d with
      | .text s => once style ds arguments { p with output := s :: p.output }
      | .stop => ({ p with isStopped := true }, [])
      | .invalid => ({ p with isInvalid := true }, [])
      | .conversion left zeros width precision letter =>
        once style ds arguments.tail
          (convert style left zeros width precision letter (arguments.headD []) p)

def run (style : EscapeStyle) (format : Bytes) (arguments : List Bytes) : Printed :=
  let directives := Directive.ofFormat style format
  let rounds := if directives.any Directive.takesArgument then arguments.length else 0
  go directives rounds arguments ⟨[], [], false, false⟩
where
  go (directives : List Directive) : Nat → List Bytes → Printed → Printed
    | 0, arguments, p => (once style directives arguments p).1
    | n + 1, arguments, p =>
      match once style directives arguments p with
      | (p, []) => p
      | (p, arguments) => go directives n arguments p

end Printf

namespace Printed

def text (p : Printed) : Bytes := p.output.reverse.flatten

def isFine (p : Printed) : Bool := p.notNumbers.isEmpty && !p.isInvalid

end Printed

end PipeShell.Utility
