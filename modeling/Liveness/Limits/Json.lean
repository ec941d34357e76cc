import Liveness.Limits.Basic

/-! Limits read from JSON.

Limits are written as an object with the keys `max-variables` and `max-steps`, either of
which may be missing, or as an array of up to two numbers in that order. Other keys are
skipped with their values, whatever these are, but a key may not be given twice. A limit
is a natural number below `2 ^ 64`, written without sign, fraction or exponent.

Only what decides about limits is kept of a text: natural numbers, arrays, and objects with
their keys. The text of a key is kept only if its escapes denote characters; a key whose
escapes leave half a surrogate pair has no text and names nothing. -/
namespace Liveness

namespace Json

inductive Value where
  | natural (n : Nat)
  | array (items : List Value)
  | object (members : List (Option String × Value))
  /-- Any other value. -/
  | other
deriving Repr

/-- A reader takes what it reads off the front of the text. -/
abbrev Reader (α : Type) := List Char → Option (α × List Char)

/-- The text after blanks. -/
def skipBlanks (cs : List Char) : List Char :=
  cs.dropWhile fun c => c == ' ' || c == '\t' || c == '\n' || c == '\r'

/-- The text after an expected word. -/
def expect : List Char → List Char → Option (List Char)
  | [], cs => some cs
  | w :: ws, c :: cs => if w = c then expect ws cs else none
  | _ :: _, [] => none

/-! ### Strings -/

def hexDigit? (c : Char) : Option Nat :=
  if '0' ≤ c ∧ c ≤ '9' then some (c.toNat - '0'.toNat)
  else if 'a' ≤ c ∧ c ≤ 'f' then some (c.toNat - 'a'.toNat + 10)
  else if 'A' ≤ c ∧ c ≤ 'F' then some (c.toNat - 'A'.toNat + 10)
  else none

/-- What the units of a string are made of: characters, and code units given by number. -/
inductive Piece where
  | char (c : Char)
  | unit (n : Nat)

/-- The characters after a backslash that stand for one character. -/
def escape? : Char → Option Char
  | '"' => some '"'
  | '\\' => some '\\'
  | '/' => some '/'
  | 'b' => some '\x08'
  | 'f' => some '\x0c'
  | 'n' => some '\n'
  | 'r' => some '\r'
  | 't' => some '\t'
  | _ => none

/-- The pieces up to the closing quote. -/
def pieces : List Char → Option (List Piece × List Char)
  | '"' :: cs => some ([], cs)
  | '\\' :: 'u' :: a :: b :: c :: d :: cs => do
    let unit := ((← hexDigit? a) * 16 + (← hexDigit? b)) * 256 + (← hexDigit? c) * 16 + (← hexDigit? d)
    let (rest, cs) ← pieces cs
    return (.unit unit :: rest, cs)
  | '\\' :: e :: cs => do
    let c ← escape? e
    let (rest, cs) ← pieces cs
    return (.char c :: rest, cs)
  | c :: cs =>
    if c.toNat < 0x20 || c == '\\' then none
    else do
      let (rest, cs) ← pieces cs
      return (.char c :: rest, cs)
  | [] => none

/-- The characters that pieces denote; the two halves of a surrogate pair belong together. -/
def denote : List Piece → Option (List Char)
  | [] => some []
  | .char c :: rest => (denote rest).map (c :: ·)
  | .unit n :: rest =>
    if 0xd800 ≤ n ∧ n < 0xdc00 then
      match rest with
      | .unit m :: rest =>
        if 0xdc00 ≤ m ∧ m < 0xe000 then
          (denote rest).map (Char.ofNat (0x10000 + (n - 0xd800) * 0x400 + (m - 0xdc00)) :: ·)
        else none
      | _ => none
    else if 0xdc00 ≤ n ∧ n < 0xe000 then none
    else (denote rest).map (Char.ofNat n :: ·)

/-- A string after its opening quote. -/
def string : Reader (Option String) := fun cs => do
  let (ps, cs) ← pieces cs
  return ((denote ps).map String.ofList, cs)

/-! ### Numbers -/

/-- One or more digits. -/
def digits : Reader (List Char) := fun cs =>
  let ds := cs.takeWhile Char.isDigit
  if ds.isEmpty then none else some (ds, cs.dropWhile Char.isDigit)

/-- A whole number: zero, or digits that do not start with it. -/
def whole : Reader Nat := fun cs => do
  let (ds, rest) ← digits cs
  if ds.head? = some '0' && ds.length != 1 then none
  else return (ds.foldl (fun n d => n * 10 + (d.toNat - '0'.toNat)) 0, rest)

/-- The fraction of a number, if there is one. -/
def fraction : Reader Bool
  | '.' :: cs => do
    let (_, cs) ← digits cs
    return (true, cs)
  | cs => some (false, cs)

/-- The exponent of a number, if there is one. -/
def exponent : Reader Bool
  | e :: cs =>
    if e = 'e' ∨ e = 'E' then do
      let (_, cs) ← digits (match cs with
        | '+' :: cs => cs
        | '-' :: cs => cs
        | cs => cs)
      return (true, cs)
    else some (false, e :: cs)
  | [] => some (false, [])

def number : Reader Value := fun cs => do
  let (negative, cs) := match cs with
    | '-' :: cs => (true, cs)
    | cs => (false, cs)
  let (n, cs) ← whole cs
  let (hasFraction, cs) ← fraction cs
  let (hasExponent, cs) ← exponent cs
  return (if negative || hasFraction || hasExponent then .other else .natural n, cs)

/-! ### Values -/

mutual
/-- A value, blanks before it skipped. The depth bounds the recursion; each step reads a
character, so the length of the text is enough. -/
def value : Nat → Reader Value
  | 0, _ => none
  | k + 1, cs =>
    match skipBlanks cs with
    | '"' :: cs => (string cs).map fun (_, cs) => (.other, cs)
    | '[' :: cs =>
      match skipBlanks cs with
      | ']' :: cs => some (.array [], cs)
      | cs => (items k cs).map fun (vs, cs) => (.array vs, cs)
    | '\x7b' :: cs =>
      match skipBlanks cs with
      | '\x7d' :: cs => some (.object [], cs)
      | cs => (members k cs).map fun (ms, cs) => (.object ms, cs)
    | 't' :: cs => (expect ['r', 'u', 'e'] cs).map fun cs => (.other, cs)
    | 'f' :: cs => (expect ['a', 'l', 's', 'e'] cs).map fun cs => (.other, cs)
    | 'n' :: cs => (expect ['u', 'l', 'l'] cs).map fun cs => (.other, cs)
    | cs => number cs
/-- The items of an array up to its end. -/
def items : Nat → Reader (List Value)
  | 0, _ => none
  | k + 1, cs => do
    let (v, cs) ← value k cs
    match skipBlanks cs with
    | ',' :: cs => (items k cs).map fun (vs, cs) => (v :: vs, cs)
    | ']' :: cs => some ([v], cs)
    | _ => none
/-- The members of an object up to its end. -/
def members : Nat → Reader (List (Option String × Value))
  | 0, _ => none
  | k + 1, cs => do
    match skipBlanks cs with
    | '"' :: cs =>
      let (name, cs) ← string cs
      match skipBlanks cs with
      | ':' :: cs =>
        let (v, cs) ← value k cs
        match skipBlanks cs with
        | ',' :: cs => (members k cs).map fun (ms, cs) => ((name, v) :: ms, cs)
        | '\x7d' :: cs => some ([(name, v)], cs)
        | _ => none
      | _ => none
    | _ => none
end

/-- The value that a whole text denotes. -/
def parse? (text : String) : Option Value :=
  let cs := text.toList
  match value (2 * cs.length + 1) cs with
  | some (v, rest) => if (skipBlanks rest).isEmpty then some v else none
  | none => none

end Json

namespace Limits

/-- A limit: a natural number that fits sixty-four bits. -/
def bound? : Json.Value → Option Nat
  | .natural n => if n ≤ 0xffffffffffffffff then some n else none
  | _ => none

/-- The limit that an object gives under a key, or the default. Giving it twice is an
error. -/
def member? (members : List (Option String × Json.Value)) (key : String) (default : Nat) :
    Option Nat :=
  match members.filter (·.1 == some key) with
  | [] => some default
  | [(_, v)] => bound? v
  | _ => none

def ofValue? : Json.Value → Option Limits
  | .array [] => some {}
  | .array [v] => do return { maxVariables := ← bound? v }
  | .array [v, w] => do return { maxVariables := ← bound? v, maxSteps := ← bound? w }
  | .object members => do
    if members.any (·.1.isNone) then none
    else
      let standard : Limits := {}
      return {
        maxVariables := ← member? members "max-variables" standard.maxVariables
        maxSteps := ← member? members "max-steps" standard.maxSteps }
  | _ => none

/-- The limits that a text gives. -/
def ofJson? (text : String) : Option Limits := (Json.parse? text).bind ofValue?

end Limits
end Liveness
