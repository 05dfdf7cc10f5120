import JvmClass.Attribute
import JvmClass.Typing.Type
import JvmClass.Version

/-!
# Events

A class is described by a sequence of events: its header, what is known about it as a whole, its
fields and methods, and its end. A method in turn is a sequence of events, with its instructions in
the order of the code and labels for the places that they refer to. A reader turns a class file into
events, and a writer turns events into a class file.

Events of a method with a body come in this order: annotations and uninterpreted attributes, the
labels that the body uses, `code`, handlers, then labels, line numbers, frames and instructions in
the order of the code, then local variables and attributes of the body, `maxs`, and `finish`.
-/

namespace JvmClass

/-- Events of a field. -/
inductive FieldEvent where
  | annotated (a : Annotation) (visible : Bool)
  | attribute (a : RawAttribute)
  | finish

/-- Events of a method. -/
inductive MethodEvent where
  | annotated (a : Annotation) (visible : Bool)
  | attribute (a : RawAttribute)
  /-- Labels that the body may use, numbered on from those made before. -/
  | newLabels (count : Nat)
  | code
  /-- An instruction without operands. -/
  | plain (opcode : UInt8)
  /-- `bipush`, `sipush` or `newarray`. -/
  | intOperand (opcode : UInt8) (operand : Int32)
  /-- A load, a store or `ret`, in its long form. -/
  | access (opcode : UInt8) (slot : UInt16)
  /-- `new`, `anewarray`, `checkcast` or `instanceof`. -/
  | typeOperand (opcode : UInt8) (name : String)
  | field (opcode : UInt8) (owner name descriptor : String)
  | method (opcode : UInt8) (owner name descriptor : String) (ownerIsInterface : Bool)
  | invokeDynamic (name descriptor : String) (bootstrap : Handle) (arguments : List Loadable)
  | jump (opcode : UInt8) (target : Label)
  | label (label : Label)
  | frame (locals stack : List LabelledType)
  | load (value : Loadable)
  | increment (slot : UInt16) (amount : Int16)
  | tableSwitch (low high : Int32) (fallback : Label) (targets : List Label)
  | lookupSwitch (fallback : Label) (keys : List Int32) (targets : List Label)
  | newMultiArray (descriptor : String) (dimensions : UInt8)
  | handler (start stop handler : Label) (catchType : Option String)
  | localVariable (name descriptor : String) (start stop : Label) (slot : UInt16)
  | lineNumber (line : UInt16) (start : Label)
  | codeAttribute (a : RawAttribute)
  | maxs (stack locals : UInt16)
  | finish

/-- Declaration of a class. -/
structure ClassHeader where
  version : Version
  flags : AccessFlags .ofClass
  name : String
  signature : Option String
  superName : Option String
  interfaces : List String

/-- Declaration of a field. -/
structure FieldDeclaration where
  flags : AccessFlags .ofField
  name : String
  descriptor : String
  signature : Option String
  value : Option Loadable

/-- Declaration of a method. -/
structure MethodDeclaration where
  flags : AccessFlags .ofMethod
  name : String
  descriptor : String
  signature : Option String
  exceptions : List String

/-- Whether the method initializes a new instance. -/
def isConstructorName (name : String) : Bool := name == "<init>"

def MethodDeclaration.isConstructor (d : MethodDeclaration) : Bool := isConstructorName d.name

/-- Events of a class. -/
inductive ClassEvent where
  | header (h : ClassHeader)
  | sourceFile (name : String)
  | nestHost (name : String)
  | enclosingMethod (owner : String) (name descriptor : Option String)
  | annotated (a : Annotation) (visible : Bool)
  | attribute (a : RawAttribute)
  | nestMember (name : String)
  | innerClass (name : String) (outer inner : Option String) (flags : AccessFlags .ofInnerClass)
  | field (declaration : FieldDeclaration) (events : List FieldEvent)
  | method (declaration : MethodDeclaration) (events : List MethodEvent)
  | finish

/-- The events of a class file, and what put an end to them if that was an error. -/
structure Trace (ε : Type) where
  events : List ε
  fault : Option ClassError

/-- Telling events one after another; those told before a failure remain. -/
abbrev Tell (ε : Type) := Step (Array ε)

namespace Tell

/-- Tells an event. -/
def event {ε : Type} (e : ε) : Tell ε Unit := modify (·.push e)

/-- Tells events in order. -/
def all {ε : Type} (events : List ε) : Tell ε Unit := modify (events.foldl Array.push ·)

/-- What is told. -/
def trace {ε : Type} (tell : Tell ε Unit) : Trace ε :=
  match tell #[] with
  | .ok _ events => ⟨events.toList, none⟩
  | .error fault events => ⟨events.toList, some fault⟩

end Tell

end JvmClass
