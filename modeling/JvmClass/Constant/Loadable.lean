import JvmClass.Decimal
import JvmClass.Text.Quoted

/-!
# Loadable constants

The values that `ldc` loads, that bootstrap methods take as arguments, and that initialize static
fields. Floats are kept as their bits, so that two values are equal exactly when they are stored
alike.
-/

namespace JvmClass

/-- What a method handle does with the member it refers to. -/
inductive HandleKind where
  | getField | getStatic | putField | putStatic
  | invokeVirtual | invokeStatic | invokeSpecial | newInvokeSpecial | invokeInterface
deriving DecidableEq, Hashable, Inhabited

namespace HandleKind

/-- The number that stores the kind. -/
def code : HandleKind → UInt8
  | getField => 1 | getStatic => 2 | putField => 3 | putStatic => 4
  | invokeVirtual => 5 | invokeStatic => 6 | invokeSpecial => 7 | newInvokeSpecial => 8
  | invokeInterface => 9

def ofCode? (code : UInt8) : Option HandleKind :=
  if code = 1 then some getField else if code = 2 then some getStatic
  else if code = 3 then some putField else if code = 4 then some putStatic
  else if code = 5 then some invokeVirtual else if code = 6 then some invokeStatic
  else if code = 7 then some invokeSpecial else if code = 8 then some newInvokeSpecial
  else if code = 9 then some invokeInterface else none

@[simp] theorem ofCode?_code (kind : HandleKind) : ofCode? kind.code = some kind := by
  cases kind <;> rfl

def name : HandleKind → String
  | getField => "GetField" | getStatic => "GetStatic" | putField => "PutField"
  | putStatic => "PutStatic" | invokeVirtual => "InvokeVirtual" | invokeStatic => "InvokeStatic"
  | invokeSpecial => "InvokeSpecial" | newInvokeSpecial => "NewInvokeSpecial"
  | invokeInterface => "InvokeInterface"

/-- Whether the handle reads or writes a field. -/
def isField : HandleKind → Bool
  | getField | getStatic | putField | putStatic => true
  | _ => false

end HandleKind

/-- A reference to a field or method, as method handles hold it. -/
structure Handle where
  kind : HandleKind
  owner : String
  name : String
  descriptor : String
  /-- Whether the owner is an interface. -/
  ownerIsInterface : Bool
deriving DecidableEq, Inhabited

/-- A value that `ldc` can load. -/
inductive Loadable where
  | int (value : Int32)
  | float (bits : UInt32)
  | long (value : Int64)
  | double (bits : UInt64)
  | string (text : String)
  /-- A class literal: an internal name, or the descriptor of an array class. -/
  | cls (name : String)
  | methodType (descriptor : String)
  | methodHandle (handle : Handle)
  /-- A value computed by a bootstrap method when it is first needed. -/
  | dynamic (name descriptor : String) (bootstrap : Handle) (arguments : List Loadable)
deriving Inhabited

/-- Whether a descriptor stands for a type that takes two slots. -/
def isWideDescriptor (descriptor : String) : Bool := descriptor == "J" || descriptor == "D"

/-- Whether the value takes two stack slots. -/
def Loadable.isWide : Loadable → Bool
  | .long _ | .double _ => true
  | .dynamic _ descriptor _ _ => isWideDescriptor descriptor
  | _ => false

/-- Whether the value can initialize a static field. -/
def Loadable.isInitializer : Loadable → Bool
  | .int _ | .float _ | .long _ | .double _ | .string _ => true
  | _ => false

open Text (quote)

/-- The handle as messages show it. -/
def Handle.describe (h : Handle) : String :=
  s!"Handle \x7b kind: {h.kind.name}, owner: {quote h.owner}, name: {quote h.name}, " ++
    s!"descriptor: {quote h.descriptor}, is_interface: {h.ownerIsInterface} \x7d"

mutual

/-- The value as messages show it. -/
def Loadable.describe : Loadable → String
  | .int value => s!"Integer({value.toInt})"
  | .float bits => s!"Float({Decimal.single.text Decimal.plain bits.toNat})"
  | .long value => s!"Long({value.toInt})"
  | .double bits => s!"Double({Decimal.double.text Decimal.plain bits.toNat})"
  | .string text => s!"String({quote text})"
  | .cls name => s!"Class({quote name})"
  | .methodType descriptor => s!"MethodType({quote descriptor})"
  | .methodHandle handle => s!"MethodHandle({handle.describe})"
  | .dynamic name descriptor bootstrap arguments =>
    s!"Dynamic(ConstantDynamic \x7b name: {quote name}, descriptor: {quote descriptor}, " ++
      s!"bootstrap_method: {bootstrap.describe}, arguments: [" ++
      ", ".intercalate (describeAll arguments) ++ "] \x7d)"

/-- The values of a list as messages show them. -/
def describeAll : List Loadable → List String
  | [] => []
  | value :: rest => value.describe :: describeAll rest

end

end JvmClass
