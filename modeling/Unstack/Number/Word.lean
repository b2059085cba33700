namespace Unstack

def fitsWord16 (v : Int) : Bool := 0 ≤ v && v ≤ 65535

def fitsWord64 (v : Int) : Bool := 0 ≤ v && v ≤ 18446744073709551615

def leastInt32 : Int := -2147483648

def greatestInt32 : Int := 2147483647

def fitsInt32 (v : Int) : Bool := leastInt32 ≤ v && v ≤ greatestInt32

def leastInt64 : Int := -9223372036854775808

def greatestInt64 : Int := 9223372036854775807

def fitsInt64 (v : Int) : Bool := leastInt64 ≤ v && v ≤ greatestInt64

end Unstack
