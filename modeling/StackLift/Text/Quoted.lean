import StackLift.Text.Hex

/-!
Quoted text: a string between double quotes, with the quote, the backslash and
the characters that would not show written as escapes. Characters that do not
show by themselves are control and format characters, separators other than the
blank, marks that combine with the character before them, and code points set
aside for private use.
-/

namespace StackLift.Quoted

/-- The ranges of code points whose characters do not show by themselves. -/
def hiddenRanges : List (Nat × Nat) :=
  [ (0x0000, 0x001f), (0x007f, 0x00a0), (0x00ad, 0x00ad),
    (0x0300, 0x036f), (0x0483, 0x0489), (0x0591, 0x05bd), (0x05bf, 0x05bf), (0x05c1, 0x05c2),
    (0x05c4, 0x05c5), (0x05c7, 0x05c7), (0x0600, 0x0605), (0x0610, 0x061a), (0x061c, 0x061c),
    (0x064b, 0x065f), (0x0670, 0x0670), (0x06d6, 0x06dd), (0x06df, 0x06e4), (0x06e7, 0x06e8),
    (0x06ea, 0x06ed), (0x070f, 0x070f), (0x0711, 0x0711), (0x0730, 0x074a),
    (0x1680, 0x1680), (0x1ab0, 0x1ace), (0x1dc0, 0x1dff),
    (0x2000, 0x200f), (0x2028, 0x202f), (0x205f, 0x206f), (0x20d0, 0x20f0),
    (0x3000, 0x3000), (0x302a, 0x302f), (0x3099, 0x309a),
    (0xe000, 0xf8ff), (0xfe00, 0xfe0f), (0xfe20, 0xfe2f), (0xfeff, 0xfeff), (0xfff0, 0xfffb),
    (0xfffe, 0xffff), (0xe0000, 0x10ffff) ]

def isHidden (c : Char) : Bool :=
  hiddenRanges.any fun (first, last) => first ≤ c.toNat && c.toNat ≤ last

/-- The hexadecimal digits of a number, without leading zeros. -/
def code (n : Nat) : List Char :=
  match (Hex.digits 6 n).dropWhile (· == '0') with
  | [] => ['0']
  | ds => ds

def escape (c : Char) : List Char :=
  if c = '"' then ['\\', '"']
  else if c = '\\' then ['\\', '\\']
  else if c = '\t' then ['\\', 't']
  else if c = '\n' then ['\\', 'n']
  else if c = '\r' then ['\\', 'r']
  else if c.toNat = 0 then ['\\', '0']
  else if isHidden c then ['\\', 'u', Char.ofNat 0x7b] ++ code c.toNat ++ [Char.ofNat 0x7d]
  else [c]

def encode (s : String) : String :=
  String.ofList ('"' :: s.toList.flatMap escape ++ ['"'])

end StackLift.Quoted
