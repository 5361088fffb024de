import EightBitAsm.Text.Numeral

/-!
Reading JSON text from left to right for a caller that knows which values it wants. A failure is of
one of three kinds, and the first one met decides: the text is no JSON, it is JSON of another kind
than wanted, or it ends too early. Values that nobody wants are skipped, which checks their form
only.
-/

namespace EightBitAsm.Json

inductive Failure where
  /-- Not JSON, or something behind the value. -/
  | malformed
  /-- JSON of another kind, range or content than wanted. -/
  | mismatched
  | truncated
  deriving DecidableEq, Repr

def isSpace (c : Char) : Bool :=
  c == ' ' || c == '\n' || c == '\t' || c == '\r'

def skipSpace (cs : List Char) : List Char :=
  cs.dropWhile isSpace

def expect : List Char → List Char → Except Failure (List Char)
  | [], cs => .ok cs
  | _ :: _, [] => .error .truncated
  | e :: es, c :: cs => if c = e then expect es cs else .error .malformed

/-! ### Strings -/

def shortEscape : Char → Option Char
  | '"' => some '"'
  | '\\' => some '\\'
  | '/' => some '/'
  | 'b' => some '\x08'
  | 'f' => some '\x0c'
  | 'n' => some '\n'
  | 'r' => some '\r'
  | 't' => some '\t'
  | _ => none

def quad? (a b c d : Char) : Option Nat := do
  let digits ← [a, b, c, d].mapM (Text.digitValue? 16)
  return digits.foldl (fun n d => 16 * n + d) 0

/-- Why fewer than four characters cannot be four hexadecimal digits: fewer than four bytes are an
early end. -/
def shortQuad (cs : List Char) : Failure :=
  if (String.ofList cs).utf8ByteSize < 4 then .truncated else .malformed

def isHighSurrogate (n : Nat) : Bool := 0xD800 ≤ n && n ≤ 0xDBFF

def isLowSurrogate (n : Nat) : Bool := 0xDC00 ≤ n && n ≤ 0xDFFF

def joinSurrogates (high low : Nat) : Char :=
  Char.ofNat (0x10000 + (high - 0xD800) * 0x400 + (low - 0xDC00))

def consChar (c : Char) (r : Except Failure (List Char × List Char)) :
    Except Failure (List Char × List Char) :=
  r.map fun p => (c :: p.1, p.2)

/-- Reads a string behind its opening quote: its characters, and what follows the closing quote. A
high surrogate has to be followed at once by a low one, so the reader remembers it. -/
def readString (high : Option Nat) : List Char → Except Failure (List Char × List Char)
  | '\\' :: 'u' :: a :: b :: c :: d :: cs => match quad? a b c d, high with
    | none, _ => .error .malformed
    | some n, none =>
      if isLowSurrogate n then .error .malformed
      else if isHighSurrogate n then readString (some n) cs
      else consChar (Char.ofNat n) (readString none cs)
    | some n, some h =>
      if isLowSurrogate n then consChar (joinSurrogates h n) (readString none cs)
      else .error .malformed
  | '\\' :: 'u' :: cs => .error (shortQuad cs)
  | ['\\'] => .error .truncated
  | [] => .error .truncated
  | '\\' :: e :: cs => match shortEscape e, high with
    | some c, none => consChar c (readString none cs)
    | _, _ => .error .malformed
  | c :: cs => match high with
    | some _ => .error .malformed
    | none =>
      if c = '"' then .ok ([], cs)
      else if c.toNat < 0x20 then .error .malformed
      else consChar c (readString none cs)

/-- Skips a string behind its opening quote. Surrogates need not come in pairs here. -/
def skipString : List Char → Except Failure (List Char)
  | '\\' :: 'u' :: a :: b :: c :: d :: cs =>
    if (quad? a b c d).isSome then skipString cs else .error .malformed
  | '\\' :: 'u' :: cs => .error (shortQuad cs)
  | ['\\'] => .error .truncated
  | [] => .error .truncated
  | '\\' :: e :: cs => if (shortEscape e).isSome then skipString cs else .error .malformed
  | c :: cs =>
    if c = '"' then .ok cs
    else if c.toNat < 0x20 then .error .malformed
    else skipString cs

/-! ### Numbers -/

inductive Number where
  | natural (n : Nat)
  | other
  deriving DecidableEq, Repr

def isExponentMark (c : Char) : Bool := c == 'e' || c == 'E'

/-- Appends digits to a significand as long as it stays below 2^64. Gives the significand and the
number of digits taken; from the first digit that does not fit on, none is taken. -/
def takeDigits (significand taken : Nat) : List Char → Nat × Nat
  | [] => (significand, taken)
  | c :: cs =>
    let next := significand * 10 + (c.toNat - '0'.toNat)
    if next < UInt64.size then takeDigits next (taken + 1) cs else (significand, taken)

/-- Whether a significand times a power of ten exceeds every finite double. -/
def isHuge (significand : Nat) (exponent : Int) : Bool :=
  if significand = 0 then false
  else if exponent > 308 then true
  else if exponent < 0 then false
  else (Float.ofNat significand * Float.ofScientific 1 false exponent.toNat).isInf

def finishReal (significand : Nat) (exponent : Int) (rest : List Char) :
    Except Failure (Number × List Char) :=
  if isHuge significand exponent then .error .malformed else .ok (.other, rest)

def noDigits (rest : List Char) : Failure :=
  if rest.isEmpty then .truncated else .malformed

def readExponent (significand : Nat) (exponent : Int) (cs : List Char) :
    Except Failure (Number × List Char) :=
  let (negative, cs) := match cs with
    | '+' :: cs => (false, cs)
    | '-' :: cs => (true, cs)
    | cs => (false, cs)
  let digits := cs.takeWhile Text.isDigit
  let rest := cs.dropWhile Text.isDigit
  if digits.isEmpty then .error (noDigits rest)
  else
    let n : Int := digits.foldl (fun n d => 10 * n + (d.toNat - '0'.toNat)) 0
    finishReal significand (if negative then exponent - n else exponent + n) rest

def readFraction (significand : Nat) (exponent : Int) (cs : List Char) :
    Except Failure (Number × List Char) :=
  let digits := cs.takeWhile Text.isDigit
  let rest := cs.dropWhile Text.isDigit
  if digits.isEmpty then .error (noDigits rest)
  else
    let (significand, taken) := takeDigits significand 0 digits
    match rest with
    | c :: cs =>
      if isExponentMark c then readExponent significand (exponent - taken) cs
      else finishReal significand (exponent - taken) rest
    | [] => finishReal significand (exponent - taken) rest

def readNumber (cs : List Char) : Except Failure (Number × List Char) :=
  let digits := cs.takeWhile Text.isDigit
  let rest := cs.dropWhile Text.isDigit
  match digits with
  | [] => .error (noDigits rest)
  | '0' :: _ :: _ => .error .malformed
  | _ =>
    let (significand, taken) := takeDigits 0 0 digits
    let exponent : Int := digits.length - taken
    let whole :=
      if exponent = 0 then .ok (.natural significand, rest)
      else finishReal significand exponent rest
    match rest with
    | '.' :: cs => readFraction significand exponent cs
    | c :: cs => if isExponentMark c then readExponent significand exponent cs else whole
    | [] => whole

/-- Skips digits, of which there has to be one. A number that ends too early is malformed if it is
skipped. -/
def skipDigits (cs : List Char) : Except Failure (List Char) :=
  match cs with
  | c :: rest => if Text.isDigit c then .ok (rest.dropWhile Text.isDigit) else .error .malformed
  | [] => .error .malformed

def skipExponent (cs : List Char) : Except Failure (List Char) :=
  match cs with
  | c :: rest =>
    if isExponentMark c then
      match rest with
      | '+' :: ds | '-' :: ds => skipDigits ds
      | ds => skipDigits ds
    else .ok cs
  | [] => .ok cs

def skipNumber (cs : List Char) : Except Failure (List Char) := do
  let rest ← match cs with
    | '0' :: c :: rest => if Text.isDigit c then .error .malformed else .ok (c :: rest)
    | cs => skipDigits cs
  let rest ← match rest with
    | '.' :: ds => skipDigits ds
    | rest => .ok rest
  skipExponent rest

/-! ### Values -/

mutual

/-- Skips a value. Of two nested calls at least one passes over a character. -/
def skipValue : Nat → List Char → Except Failure (List Char)
  | 0, _ => .error .truncated
  | fuel + 1, cs => match skipSpace cs with
    | [] => .error .truncated
    | 'n' :: rest => expect ['u', 'l', 'l'] rest
    | 't' :: rest => expect ['r', 'u', 'e'] rest
    | 'f' :: rest => expect ['a', 'l', 's', 'e'] rest
    | '"' :: rest => skipString rest
    | '-' :: rest => skipNumber rest
    | '[' :: rest => match skipSpace rest with
      | [] => .error .truncated
      | ']' :: rest => .ok rest
      | rest => skipItems fuel rest
    | '\x7b' :: rest => match skipSpace rest with
      | [] => .error .truncated
      | '\x7d' :: rest => .ok rest
      | rest => skipMembers fuel rest
    | c :: rest => if Text.isDigit c then skipNumber (c :: rest) else .error .malformed

def skipItems : Nat → List Char → Except Failure (List Char)
  | 0, _ => .error .truncated
  | fuel + 1, cs => do
    let rest ← skipValue fuel cs
    match skipSpace rest with
    | [] => .error .truncated
    | ',' :: rest => skipItems fuel rest
    | ']' :: rest => .ok rest
    | _ => .error .malformed

def skipMembers : Nat → List Char → Except Failure (List Char)
  | 0, _ => .error .truncated
  | fuel + 1, cs => match skipSpace cs with
    | [] => .error .truncated
    | '"' :: rest => do
      let rest ← skipString rest
      match skipSpace rest with
      | [] => .error .truncated
      | ':' :: rest =>
        let rest ← skipValue fuel rest
        match skipSpace rest with
        | [] => .error .truncated
        | ',' :: rest => skipMembers fuel rest
        | '\x7d' :: rest => .ok rest
        | _ => .error .malformed
      | _ => .error .malformed
    | _ => .error .malformed

end

/-- Skips a value, with enough fuel for every text. -/
def skip (cs : List Char) : Except Failure (List Char) :=
  skipValue (2 * cs.length + 1) cs

def mismatchAfter {α : Type} (r : Except Failure α) : Failure :=
  match r with
  | .ok _ => .mismatched
  | .error failure => failure

/-- Why the value at the head of the text is not of the wanted kind. A word, a number or a string is
read to its end first, and a list or a record is refused at its bracket. -/
def wrongKind (cs : List Char) : Failure :=
  match cs with
  | [] => .truncated
  | 'n' :: rest => mismatchAfter (expect ['u', 'l', 'l'] rest)
  | 't' :: rest => mismatchAfter (expect ['r', 'u', 'e'] rest)
  | 'f' :: rest => mismatchAfter (expect ['a', 'l', 's', 'e'] rest)
  | '"' :: rest => mismatchAfter (readString none rest)
  | '-' :: rest => mismatchAfter (readNumber rest)
  | '[' :: _ | '\x7b' :: _ => .mismatched
  | c :: rest => if Text.isDigit c then mismatchAfter (readNumber (c :: rest)) else .malformed

def readUnsigned (cs : List Char) : Except Failure (Nat × List Char) :=
  match skipSpace cs with
  | [] => .error .truncated
  | c :: rest =>
    if Text.isDigit c then
      match readNumber (c :: rest) with
      | .ok (.natural n, rest) => if n < UInt32.size then .ok (n, rest) else .error .mismatched
      | .ok (.other, _) => .error .mismatched
      | .error failure => .error failure
    else .error (wrongKind (c :: rest))

def finish {α : Type} (value : α) (rest : List Char) : Except Failure α :=
  if (skipSpace rest).isEmpty then .ok value else .error .malformed

end EightBitAsm.Json
