-- Powers of the two bases that numbers are written in.
namespace PageLocalizer.Number

def twoTo (k : Nat) : Nat := Nat.pow 2 k

def tenTo (k : Nat) : Nat := Nat.pow 10 k

end PageLocalizer.Number
