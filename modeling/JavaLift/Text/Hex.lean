namespace JavaLift.Text

/-- The hexadecimal digits of a number, filled up with zeros to a least width. -/
def hex (width n : Nat) : String :=
  let digits := Nat.toDigits 16 n
  String.ofList (List.replicate (width - digits.length) '0' ++ digits)

/-- A code position: four digits at least. -/
def offset (n : Nat) : String := "0x" ++ hex 4 n

end JavaLift.Text
