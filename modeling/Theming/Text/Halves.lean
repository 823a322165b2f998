/-!
# Characters written in halves

Escapes of four hexadecimal digits reach the characters of the first plane only.  A character beyond it is written in
two halves, a high one and a low one after it, whose codes are no characters by themselves.
-/

namespace Theming.Text

def isHighHalf (n : Nat) : Bool := 0xD800 ≤ n && n < 0xDC00

def isLowHalf (n : Nat) : Bool := 0xDC00 ≤ n && n < 0xE000

/-- The characters with these codes, if no half of a character stands alone. -/
def characters? : List Nat → Option (List Char)
  | [] => some []
  | [n] => if isHighHalf n || isLowHalf n then none else some [Char.ofNat n]
  | n :: m :: rest =>
    if isHighHalf n then
      if isLowHalf m then
        (characters? rest).map (Char.ofNat (0x10000 + (n - 0xD800) * 0x400 + (m - 0xDC00)) :: ·)
      else none
    else if isLowHalf n then none
    else (characters? (m :: rest)).map (Char.ofNat n :: ·)

example : characters? [0xD83D, 0xDE00, 0x61] = some ['😀', 'a'] ∧ characters? [0xDE00, 0xD83D] = none := by decide

end Theming.Text
