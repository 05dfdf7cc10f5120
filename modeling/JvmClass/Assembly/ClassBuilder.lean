import JvmClass.Assembly.Body
import JvmClass.Image.Events

/-!
# Classes under construction

A `ClassBuilder` takes up the events of a class and gives the class file. One that starts from the
pool of another class keeps every index of it, so that uninterpreted attributes stay valid; one with
a fresh pool refuses them.
-/

namespace JvmClass

/-- The header of a class under construction. -/
structure StoredHeader where
  version : Version
  flags : AccessFlags .ofClass
  name : ClassName
  thisClass : PoolIndex
  /-- Zero for the root class. -/
  superClass : PoolIndex
  interfaces : List PoolIndex
  signature : Option PoolIndex
deriving Inhabited

/-- A class under construction. -/
structure ClassBuilder where
  compute : Compute
  pool : ConstantPool := ConstantPool.empty
  /-- Whether the pool started as a copy of another class's. -/
  copiedPool : Bool := false
  hierarchy : Hierarchy := Hierarchy.flat
  header : Option StoredHeader := none
  sourceFile : Option PoolIndex := none
  nestHost : Option PoolIndex := none
  enclosingMethod : Option (PoolIndex × Option PoolIndex) := none
  nestMembers : Array PoolIndex := #[]
  innerClasses : Array InnerClass := #[]
  annotations : Array Annotated := #[]
  attributes : Array RawAttribute := #[]
  fields : Array Member := #[]
  methods : Array Member := #[]
deriving Inhabited

/-- A step in the construction of a class. -/
abbrev Build := Step ClassBuilder

namespace ClassBuilder

/-- A class with a fresh pool. -/
def fresh (compute : Compute) (hierarchy : Hierarchy) : ClassBuilder := { compute, hierarchy }

/-- A class whose pool starts as a copy of that of another class. -/
def copying (image : ClassImage) (compute : Compute) (hierarchy : Hierarchy) :
    Except ClassError ClassBuilder := do
  return { compute, hierarchy, pool := ← image.copyPool, copiedPool := true }

/-- A request to the pool. -/
def ask {α : Type} (request : ConstantPool.Request α) : Build α :=
  Step.on ClassBuilder.pool (fun b pool => { b with pool }) request

/-- The header, which must have come. -/
def getHeader : Build StoredHeader := do
  match (← get).header with
  | none => throw .missingClassHeader
  | some header => return header

/-- Takes up the header. Classes that are too old for frames get none computed. -/
def beginClass (h : ClassHeader) : Build Unit := do
  if !h.version.needsFrames then modify fun b => { b with compute := b.compute.withoutFrames }
  let thisClass ← ask (ConstantPool.cls h.name)
  let superClass ← ask (ConstantPool.clsOrZero h.superName)
  let interfaces ← ask (ConstantPool.classes h.interfaces)
  let _ ← Step.of (count16 "interfaces" interfaces.length)
  let signature ← ask (ConstantPool.utf8? h.signature)
  let name ← Step.of (ClassName.parse h.name)
  modify fun b =>
    { b with header := some { version := h.version, flags := h.flags, name, thisClass, superClass,
                              interfaces, signature } }

/-- Takes up the class and method around a local class. A method has both a name and a
descriptor. -/
def encloseIn (owner : String) (name descriptor : Option String) : Build Unit := do
  let cls ← ask (ConstantPool.cls owner)
  let method ← match name, descriptor with
    | some name, some descriptor => some <$> ask (ConstantPool.nameAndType name descriptor)
    | none, none => pure none
    | _, _ => throw (.malformedAttribute "EnclosingMethod" (.halfMethod owner))
  modify fun b => { b with enclosingMethod := some (cls, method) }

/-- Takes up a nest member. -/
def addNestMember (name : String) : Build Unit := do
  let cls ← ask (ConstantPool.cls name)
  modify fun b => { b with nestMembers := b.nestMembers.push cls }
  let _ ← Step.of (count16 "nest members" (← get).nestMembers.size)

/-- Takes up an inner class, of which only the first entry for a class counts. -/
def addInnerClass (name : String) (outer inner : Option String)
    (flags : AccessFlags .ofInnerClass) : Build Unit := do
  let cls ← ask (ConstantPool.cls name)
  if !(← get).innerClasses.any (·.inner == cls) then
    let outer ← ask (ConstantPool.clsOrZero outer)
    let inner ← ask (ConstantPool.utf8OrZero inner)
    modify fun b => { b with innerClasses := b.innerClasses.push ⟨cls, outer, inner, flags⟩ }
    let _ ← Step.of (count16 "inner classes" (← get).innerClasses.size)

/-- Starts a field. -/
def startField (d : FieldDeclaration) : Build FieldBuilder := do
  let _ ← getHeader
  let (name, descriptor, signature, value) ← ask (FieldBuilder.constants d)
  let b ← get
  return { pool := ConstantPool.empty, copiedPool := b.copiedPool, flags := d.flags, name,
           descriptor, signature, value, annotations := #[], attributes := #[], finished := #[] }

/-- Starts a method. -/
def startMethod (d : MethodDeclaration) : Build MethodBuilder := do
  let header ← getHeader
  let b ← get
  let setting ← ask
    (MethodBuilder.start b.compute b.copiedPool b.hierarchy header.name d)
  return MethodBuilder.ofSetting setting ConstantPool.empty

/-- Runs a step on a field under construction, which works on the pool of the class meanwhile.
Fields that it finishes become fields of the class. -/
def onField {α : Type} (step : Step FieldBuilder α) (f : FieldBuilder) :
    Build (Except ClassError α × FieldBuilder) := fun b =>
  let pool := b.pool
  let b := { b with pool := default }
  let (answer, f) := match step { f with pool } with
    | .ok a f => (Except.ok a, f)
    | .error e f => (Except.error e, f)
  let b := { b with pool := f.pool, fields := b.fields ++ f.finished }
  .ok (answer, { f with pool := default, finished := #[] }) b

/-- Runs a step on a method under construction, which works on the pool of the class meanwhile.
Methods that it finishes become methods of the class. -/
def onMethod {α : Type} (step : Assemble α) (m : MethodBuilder) :
    Build (Except ClassError α × MethodBuilder) := fun b =>
  let pool := b.pool
  let b := { b with pool := default }
  let (answer, m) := match step { m with pool } with
    | .ok a m => (Except.ok a, m)
    | .error e m => (Except.error e, m)
  let b := { b with pool := m.pool, methods := b.methods ++ m.finished }
  .ok (answer, { m with pool := default, finished := #[] }) b

/-- Takes up events of a field in order. -/
def feedField : List FieldEvent → Step FieldBuilder Unit
  | [] => pure ()
  | event :: rest => do
    FieldBuilder.feed event
    feedField rest

/-- Takes up events of a method in order. -/
def feedMethod : List MethodEvent → Assemble Unit
  | [] => pure ()
  | event :: rest => do
    MethodBuilder.feed event
    feedMethod rest

/-- Takes up the end of the class. -/
def endClass : Build Unit := do
  let _ ← getHeader
  let b ← get
  let _ ← Step.of (count16 "fields" b.fields.size)
  let _ ← Step.of (count16 "methods" b.methods.size)

/-- Takes up an event of the class. -/
def feed : ClassEvent → Build Unit
  | .header h => beginClass h
  | .sourceFile name => do
    let index ← ask (ConstantPool.utf8 name)
    modify fun b => { b with sourceFile := some index }
  | .nestHost name => do
    let index ← ask (ConstantPool.cls name)
    modify fun b => { b with nestHost := some index }
  | .enclosingMethod owner name descriptor => encloseIn owner name descriptor
  | .annotated a visible =>
    modify fun b => { b with annotations := b.annotations.push (a, visible) }
  | .attribute a => do
    Step.of (a.check (← get).copiedPool)
    modify fun b => { b with attributes := b.attributes.push a }
  | .nestMember name => addNestMember name
  | .innerClass name outer inner flags => addInnerClass name outer inner flags
  | .field d events => do
    let f ← startField d
    let (answer, _) ← onField (feedField events) f
    Step.of answer
  | .method d events => do
    let m ← startMethod d
    let (answer, _) ← onMethod (feedMethod events) m
    Step.of answer
  | .finish => endClass

/-- Takes up events in order. -/
def feedAll : List ClassEvent → Build Unit
  | [] => pure ()
  | event :: rest => do
    feed event
    feedAll rest

/-- Takes up what a class file tells. A fault of the file counts after the events before it. -/
def feedTrace (trace : Trace ClassEvent) : Build Unit := do
  feedAll trace.events
  match trace.fault with
  | none => pure ()
  | some fault => throw fault

/-- The attributes of the class. Bootstrap methods come last, since storing the others may add
some. -/
def classAttributes : Build (List Attribute) := do
  let header ← getHeader
  let b ← get
  let sourceFile ← ask (Attribute.makeIf (b.sourceFile.map .sourceFile))
  let signature ← ask (Attribute.makeSignature header.signature)
  let enclosing ← ask (Attribute.makeIf (b.enclosingMethod.map fun (cls, method) =>
    .enclosingMethod cls method))
  let nestHost ← ask (Attribute.makeIf (b.nestHost.map .nestHost))
  let nestMembers ← ask (Attribute.makeIf
    (if b.nestMembers.isEmpty then none else some (.nestMembers b.nestMembers.toList)))
  let innerClasses ← ask (Attribute.makeIf
    (if b.innerClasses.isEmpty then none else some (.innerClasses b.innerClasses.toList)))
  let annotations ← ask (Attribute.makeAnnotations b.annotations.toList)
  let raw ← ask (Attribute.makeRaw b.attributes.toList)
  let bootstraps := (← get).pool.bootstraps
  let bootstrapMethods ← ask (Attribute.makeIf
    (if bootstraps.isEmpty then none else some (.bootstrapMethods bootstraps.toList)))
  let attributes := sourceFile ++ signature ++ enclosing ++ nestHost ++ nestMembers ++
    innerClasses ++ annotations ++ raw ++ bootstrapMethods
  let _ ← Step.of (count16 "class attributes" attributes.length)
  return attributes

/-- Appends the parts of a class file, each checked against its size. -/
def putParts (b : ClassBuilder) (header : StoredHeader) (attributes : List Attribute) :
    Step Bytes Unit := do
  modify fun out => (out.putU32 magic).putAll header.version.encode
  putSized "constant pool" b.pool.byteSize b.pool.put
  modify fun out =>
    ((out.putU16 header.flags.bits).putU16 header.thisClass).putU16 header.superClass
  putSized "interfaces" (2 + 2 * header.interfaces.length)
    (Put.counted Put.u16 header.interfaces)
  putSized "fields" (Member.listSize b.fields.toList) (Put.counted Member.put b.fields.toList)
  putSized "methods" (Member.listSize b.methods.toList) (Put.counted Member.put b.methods.toList)
  putSized "class attributes" (Attribute.listSize attributes) (Attribute.putList attributes)

/-- The number of bytes of the class file. -/
def byteSize (b : ClassBuilder) (header : StoredHeader) (attributes : List Attribute) : Nat :=
  14 + b.pool.byteSize + (2 + 2 * header.interfaces.length) + Member.listSize b.fields.toList +
    Member.listSize b.methods.toList + Attribute.listSize attributes

/-- The class file. Its attributes get their constants first. -/
def toBytes : Build Bytes := do
  let attributes ← classAttributes
  let header ← getHeader
  let b ← get
  match putParts b header attributes #[] with
  | .error e _ => throw e
  | .ok _ out =>
    let size := b.byteSize header attributes
    if out.size = size then return out else throw (.sizeMismatch "class" size out.size)

end ClassBuilder

/-- Reads a class file and writes it again, as a copy of its pool or with a fresh one. -/
def reencode (image : ClassImage) (skip : Skip) (compute : Compute) (fresh : Bool)
    (hierarchy : Hierarchy) : Except ClassError Bytes := do
  let builder ←
    if fresh then pure (ClassBuilder.fresh compute hierarchy)
    else ClassBuilder.copying image compute hierarchy
  let build : Build Bytes := do
    ClassBuilder.feedTrace (image.events skip)
    ClassBuilder.toBytes
  match build builder with
  | .ok out _ => return out
  | .error e _ => throw e

end JvmClass
