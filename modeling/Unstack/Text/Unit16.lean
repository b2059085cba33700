namespace Unstack.Text

/-- The UTF-16 units of one character: itself, or a surrogate pair above U+FFFF. -/
def units16 (c : Char) : List Nat :=
  let n := c.toNat
  if n < 0x10000 then [n]
  else [0xd800 + (n - 0x10000) / 0x400, 0xdc00 + (n - 0x10000) % 0x400]

/-- The hash that a compiled switch on strings dispatches on: base 31 over the UTF-16 units, in 32-bit
arithmetic that wraps, read as a signed number. -/
def stringHash (s : String) : Int :=
  let h := (s.toList.flatMap units16).foldl (fun h u => h * 31 + UInt32.ofNat u) (0 : UInt32)
  h.toInt32.toInt

end Unstack.Text
