/-! Trimming text, and cutting it at a mark. Blanks have the Unicode property White_Space. -/

namespace Petri.Text

def blankRanges : List (Nat × Nat) :=
  [(0x09, 0x0D), (0x20, 0x20), (0x85, 0x85), (0xA0, 0xA0), (0x1680, 0x1680), (0x2000, 0x200A),
    (0x2028, 0x2029), (0x202F, 0x202F), (0x205F, 0x205F), (0x3000, 0x3000)]

def isBlank (c : Char) : Bool :=
  blankRanges.any fun r => r.1 ≤ c.toNat && c.toNat ≤ r.2

def trimLeft (s : List Char) : List Char :=
  s.dropWhile isBlank

def trimRight (s : List Char) : List Char :=
  (s.reverse.dropWhile isBlank).reverse

def trim (s : List Char) : List Char :=
  trimRight (trimLeft s)

def cut? (mark : List Char) : List Char → Option (List Char × List Char)
  | [] => none
  | c :: s =>
    if mark.isPrefixOf (c :: s) then some ([], (c :: s).drop mark.length)
    else (cut? mark s).map fun (before, after) => (c :: before, after)

/-- Cuts at the first colon that does not open `://`. -/
def cutColon? : List Char → Option (List Char × List Char)
  | [] => none
  | c :: s =>
    if c = ':' ∧ ¬ ['/', '/'].isPrefixOf s then some ([], s)
    else (cutColon? s).map fun (before, after) => (c :: before, after)

/-- The pieces between the commas that stand outside braces, `depth` braces being open. A closing brace too
many is passed over. -/
def commaPieces (depth : Nat) : List Char → List (List Char)
  | [] => [[]]
  | c :: s =>
    if c = ',' ∧ depth = 0 then [] :: commaPieces 0 s
    else
      let inside := if c = '\x7b' then depth + 1 else if c = '\x7d' then depth - 1 else depth
      match commaPieces inside s with
      | [] => [[c]]
      | piece :: pieces => (c :: piece) :: pieces

end Petri.Text
