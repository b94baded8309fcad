/-!
# Patterns

Patterns over characters, as rows of items: one character of a class, or any number of them. File
name patterns and the basic regular expressions of text tools are both read into such rows.
-/
namespace DumpVault.Shell

inductive CharClass
  | any
  | one (c : Char)
  | ranges (negated : Bool) (rs : List (Char × Char))
  deriving DecidableEq, Repr

def CharClass.accepts (k : CharClass) (c : Char) : Bool :=
  match k with
  | any => true
  | one d => c == d
  | ranges negated rs => negated != rs.any fun (a, b) => a ≤ c && c ≤ b

inductive Item
  | once (k : CharClass)
  | many (k : CharClass)
  deriving DecidableEq, Repr

namespace Pattern

/-- Any number of characters of a class, as many as possible, and then what `rest` matches. -/
def repeated (k : CharClass) (rest : List Char → Option (List Char)) :
    List Char → Option (List Char)
  | [] => rest []
  | c :: cs => if k.accepts c then (repeated k rest cs).or (rest (c :: cs)) else rest (c :: cs)

/-- Matches items at the front of a text; what is left must satisfy `accept`. -/
def matchFront (accept : List Char → Bool) : List Item → List Char → Option (List Char)
  | [], cs => if accept cs then some cs else none
  | .once _ :: _, [] => none
  | .once k :: items, c :: cs => if k.accepts c then matchFront accept items cs else none
  | .many k :: items, cs => repeated k (matchFront accept items) cs

def matchWhole (items : List Item) (cs : List Char) : Bool :=
  (matchFront List.isEmpty items cs).isSome

def classRanges (acc : List (Char × Char)) : List Char → Option (List (Char × Char) × List Char)
  | [] => none
  | ']' :: rest => if acc.isEmpty then classRanges [(']', ']')] rest else some (acc, rest)
  | a :: '-' :: b :: rest =>
    if b == ']' then some (acc ++ [(a, a), ('-', '-')], rest)
    else classRanges (acc ++ [(a, b)]) rest
  | a :: rest => classRanges (acc ++ [(a, a)]) rest

def bracket? (cs : List Char) : Option (CharClass × List Char) :=
  match cs with
  | '!' :: rest | '^' :: rest => (classRanges [] rest).map fun (rs, rest) => (.ranges true rs, rest)
  | cs => (classRanges [] cs).map fun (rs, rest) => (.ranges false rs, rest)

/-- The items of a file name pattern. A character paired with `true` is quoted and stands for
itself. The number bounds the characters read. -/
def ofGlob : Nat → List (Char × Bool) → List Item
  | 0, _ => []
  | _, [] => []
  | fuel + 1, (c, isQuoted) :: rest =>
    if isQuoted then .once (.one c) :: ofGlob fuel rest
    else if c == '*' then .many .any :: ofGlob fuel rest
    else if c == '?' then .once .any :: ofGlob fuel rest
    else if c == '[' then
      match bracket? (rest.map (·.1)) with
      | some (k, left) => .once k :: ofGlob fuel (rest.drop (rest.length - left.length))
      | none => .once (.one c) :: ofGlob fuel rest
    else .once (.one c) :: ofGlob fuel rest

/-- The items of a basic regular expression without its anchors. -/
def ofBasic : Nat → List Char → List Item
  | 0, _ => []
  | _, [] => []
  | fuel + 1, c :: cs =>
    let (k, rest) : CharClass × List Char :=
      match c, cs with
      | '.', cs => (.any, cs)
      | '\\', d :: cs => (.one d, cs)
      | '[', cs => (bracket? cs).getD (.one '[', cs)
      | c, cs => (.one c, cs)
    match rest with
    | '*' :: rest => .many k :: ofBasic fuel rest
    | rest => .once k :: ofBasic fuel rest

end Pattern
end DumpVault.Shell
