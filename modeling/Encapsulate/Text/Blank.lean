/-!
Blank characters, trimming and words. The blank characters are the twenty-five
of the Unicode property White_Space, which includes the line separators and the
wide spaces.
-/

namespace Encapsulate.Text

def isBlank (c : Char) : Bool :=
  let n := c.toNat
  (9 ≤ n && n ≤ 13) || n == 0x20 || n == 0x85 || n == 0xa0 || n == 0x1680
    || (0x2000 ≤ n && n ≤ 0x200a) || n == 0x2028 || n == 0x2029 || n == 0x202f
    || n == 0x205f || n == 0x3000

def trimStart (cs : List Char) : List Char :=
  cs.dropWhile isBlank

def dropEndWhile (p : Char → Bool) (cs : List Char) : List Char :=
  (cs.reverse.dropWhile p).reverse

def trimEnd (cs : List Char) : List Char :=
  dropEndWhile isBlank cs

def trim (cs : List Char) : List Char :=
  trimEnd (trimStart cs)

/-- The word at the start of a text, which is empty before a blank, and the words
after it. -/
def splitWord : List Char → List Char × List (List Char)
  | [] => ([], [])
  | c :: cs =>
    let (word, later) := splitWord cs
    if isBlank c then ([], if word.isEmpty then later else word :: later)
    else (c :: word, later)

def words (cs : List Char) : List (List Char) :=
  let (word, later) := splitWord cs
  if word.isEmpty then later else word :: later

def occursIn (part : List Char) : List Char → Bool
  | [] => part.isEmpty
  | c :: cs => part.isPrefixOf (c :: cs) || occursIn part cs

def endsWith (cs part : List Char) : Bool :=
  part.reverse.isPrefixOf cs.reverse

end Encapsulate.Text
