import Unstack.JavaType

namespace Unstack

/-- Access flags of a member as sixteen bits, bits without a name included. -/
structure AccessFlags where
  bits : UInt16
  deriving DecidableEq, Inhabited

namespace AccessFlags

def none : AccessFlags := ⟨0⟩

def named : List (String × UInt16) :=
  [("PUBLIC", 0x0001), ("PRIVATE", 0x0002), ("PROTECTED", 0x0004), ("STATIC", 0x0008), ("FINAL", 0x0010),
    ("SYNTHETIC", 0x1000), ("ENUM", 0x4000)]

def has (flags : AccessFlags) (bit : UInt16) : Bool := flags.bits &&& bit == bit

def isStatic (flags : AccessFlags) : Bool := flags.has 0x0008

end AccessFlags

structure FieldRef where
  owner : JavaType
  name : String
  type : JavaType
  flags : AccessFlags
  deriving DecidableEq, Inhabited

structure MethodRef where
  owner : JavaType
  name : String
  params : List JavaType
  result : JavaType
  flags : AccessFlags
  deriving DecidableEq, Inhabited

namespace MethodRef

def isConstructor (m : MethodRef) : Bool := m.name == "<init>"

def returnsVoid (m : MethodRef) : Bool := m.result == JavaType.void

end MethodRef

end Unstack
