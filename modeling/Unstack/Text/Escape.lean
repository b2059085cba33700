namespace Unstack.Text

/-- The control characters: U+0000 to U+001F and U+007F to U+009F. -/
def isControl (c : Char) : Bool :=
  c.toNat < 0x20 || (0x7f ≤ c.toNat && c.toNat ≤ 0x9f)

/-- Lower-case hexadecimal digits of `n`, zeros in front up to `width` of them. -/
def hex (width n : Nat) : List Char :=
  let digits := Nat.toDigits 16 n
  List.replicate (width - digits.length) '0' ++ digits

/-- One character inside a literal that `quote` closes: the backslash, the quote and the three common
layout characters get a backslash, other control characters are written as `\uXXXX`. -/
def escapeChar (quote c : Char) : List Char :=
  if c = '\\' then ['\\', '\\']
  else if c = '\n' then ['\\', 'n']
  else if c = '\r' then ['\\', 'r']
  else if c = '\t' then ['\\', 't']
  else if c = quote then ['\\', c]
  else if isControl c then '\\' :: 'u' :: hex 4 c.toNat
  else [c]

def escape (quote : Char) (cs : List Char) : List Char :=
  cs.flatMap (escapeChar quote)

def literal (quote : Char) (s : String) : String :=
  String.ofList (quote :: escape quote s.toList ++ [quote])

/-- One character in the quoted form that listings use: NUL has a name of its own and other control
characters are written in braces with as many hexadecimal digits as they need. -/
def listingChar (c : Char) : List Char :=
  if c = '\\' || c = '"' then ['\\', c]
  else if c = '\n' then ['\\', 'n']
  else if c = '\r' then ['\\', 'r']
  else if c = '\t' then ['\\', 't']
  else if c = Char.ofNat 0 then ['\\', '0']
  else if isControl c then ['\\', 'u', '{'] ++ hex 1 c.toNat ++ ['}']
  else [c]

def listingLiteral (s : String) : String :=
  String.ofList ('"' :: s.toList.flatMap listingChar ++ ['"'])

end Unstack.Text
