import JvmClass.Proofs.Code.Sequence
import JvmClass.Proofs.Image.Tells

/-!
# Places that a body refers to

Whatever a body gives by an offset is named before any of its events is told, and an offset is named
only where an instruction starts or where the code ends (`StoredBody.Admits`). The end of the code is
admitted for every kind of place alike, not for the ends of ranges only; frames are the one kind that
is checked again, so that they always stand before an instruction.
-/

namespace JvmClass

/-- A mapped list has been gone through item by item. -/
theorem Step.mapM_ok {σ α β : Type} {f : α → Step σ β} {items : List α} {found : List β} {s s' : σ}
    (h : items.mapM f s = .ok found s') {a : α} (ha : a ∈ items) :
    ∃ b t t', f a t = .ok b t' := by
  induction items generalizing found s s' with
  | nil => cases ha
  | cons first rest ih =>
    rw [List.mapM_cons] at h
    obtain ⟨b, t, hfirst, h⟩ := Step.bind_ok.1 h
    obtain ⟨others, t', hrest, -⟩ := Step.bind_ok.1 h
    rcases List.mem_cons.1 ha with rfl | ha
    · exact ⟨b, s, t, hfirst⟩
    · exact ih hrest ha

/-- Every place of an instruction is renamed in turn. -/
theorem Instruction.mapM_ok {σ P Q : Type} {f : P → Step σ Q} {i : Instruction P} {j : Instruction Q}
    {s s' : σ} (h : i.mapM f s = .ok j s') {p : P} (hp : p ∈ i.places) :
    ∃ q t t', f p t = .ok q t' := by
  cases i with
  | jump op target =>
    obtain ⟨q, t, hq, -⟩ := Step.bind_ok.1 h
    obtain rfl := List.mem_singleton.1 hp
    exact ⟨q, s, t, hq⟩
  | tableSwitch low high fallback targets =>
    obtain ⟨q, t, hq, h⟩ := Step.bind_ok.1 h
    obtain ⟨others, t', hothers, -⟩ := Step.bind_ok.1 h
    rcases List.mem_cons.1 hp with rfl | hp
    · exact ⟨q, s, t, hq⟩
    · exact Step.mapM_ok hothers hp
  | lookupSwitch fallback keys targets =>
    obtain ⟨q, t, hq, h⟩ := Step.bind_ok.1 h
    obtain ⟨others, t', hothers, -⟩ := Step.bind_ok.1 h
    rcases List.mem_cons.1 hp with rfl | hp
    · exact ⟨q, s, t, hq⟩
    · exact Step.mapM_ok hothers hp
  | _ => cases hp

/-- An instruction of a body starts at an offset. -/
def StoredBody.Starts (body : StoredBody) (p : Nat) : Prop := ∃ i, (p, i) ∈ body.instructions

/-- An instruction of a body starts at an offset, or the code ends there. -/
def StoredBody.Admits (body : StoredBody) (p : Nat) : Prop := body.Starts p ∨ p = body.size

/-- The places that a body and its tables refer to, kind by kind. -/
structure BodyTables.Placed (tables : BodyTables) (body : StoredBody) : Prop where
  targets : ∀ x ∈ body.instructions, ∀ p ∈ x.2.places, body.Admits p
  ranges : ∀ entry ∈ body.exceptionTable,
    body.Admits entry.start.toNat ∧ body.Admits entry.stop.toNat
  handlers : ∀ entry ∈ body.exceptionTable, body.Admits entry.handler.toNat
  lines : ∀ line ∈ tables.lines, body.Admits line.1
  vars : ∀ v ∈ tables.vars, body.Admits v.start ∧ body.Admits v.stop
  frames : ∀ frame ∈ tables.stackMap, body.Starts frame.offset
  allocations : ∀ frame ∈ tables.stackMap, ∀ p,
    .uninitialized p ∈ frame.layout.locals ++ frame.layout.stack → body.Admits p

namespace ClassImage

variable {image : ClassImage} {skip : Skip} {body : StoredBody} {tables : BodyTables}
  {s s' : Places}

theorem mem_of_startsAt {instructions : Array (Nat × Instruction Nat)} {p : Nat}
    (h : Instruction.startsAt instructions p = true) : ∃ i, (p, i) ∈ instructions := by
  simp only [Instruction.startsAt] at h
  split at h
  · rename_i start i hi
    obtain rfl := eq_of_beq h
    exact ⟨i, Array.mem_of_getElem? hi⟩
  · cases h

theorem admits_of_namePlace {p : Nat} {label : Label}
    (h : namePlace body p s = .ok label s') : body.Admits p := by
  unfold namePlace at h
  split at h
  · rename_i hp
    rcases Bool.or_eq_true_iff.1 hp with hp | hp
    · exact Or.inl (mem_of_startsAt hp)
    · exact Or.inr (eq_of_beq hp)
  · exact (Step.throw_ok.1 h).elim

theorem admits_of_nameHandler {entry : TableEntry} {range : HandlerRange}
    (h : image.nameHandler body entry s = .ok range s') :
    (body.Admits entry.start.toNat ∧ body.Admits entry.stop.toNat) ∧
      body.Admits entry.handler.toNat := by
  obtain ⟨_, _, hstart, h⟩ := Step.bind_ok.1 h
  obtain ⟨_, _, hstop, h⟩ := Step.bind_ok.1 h
  obtain ⟨_, _, hhandler, -⟩ := Step.bind_ok.1 h
  exact ⟨⟨admits_of_namePlace hstart, admits_of_namePlace hstop⟩, admits_of_namePlace hhandler⟩

theorem admits_of_nameVariable {v : StoredVariable} {range : VariableRange Label}
    (h : image.nameVariable body v s = .ok range s') :
    body.Admits v.start ∧ body.Admits v.stop := by
  obtain ⟨_, _, -, h⟩ := Step.bind_ok.1 h
  obtain ⟨_, _, -, h⟩ := Step.bind_ok.1 h
  obtain ⟨_, _, hstart, h⟩ := Step.bind_ok.1 h
  obtain ⟨_, _, hstop, -⟩ := Step.bind_ok.1 h
  exact ⟨admits_of_namePlace hstart, admits_of_namePlace hstop⟩

theorem admits_of_nameTypes {types : List NamedType} {named : List LabelledType}
    (h : types.mapM (fun t => t.mapM pure (namePlace body)) s = .ok named s') {p : Nat}
    (hp : .uninitialized p ∈ types) : body.Admits p := by
  obtain ⟨_, _, _, hnamed⟩ := Step.mapM_ok h hp
  obtain ⟨_, _, hplace, -⟩ := Step.bind_ok.1 hnamed
  exact admits_of_namePlace hplace

theorem starts_of_nameFrame {frame : PlacedFrame} {named : Nat × Layout LabelledType}
    (h : nameFrame body frame s = .ok named s') :
    body.Starts frame.offset ∧
      ∀ p, .uninitialized p ∈ frame.layout.locals ++ frame.layout.stack → body.Admits p := by
  unfold nameFrame at h
  obtain ⟨hinside, h⟩ := Step.guard_ok.1 h
  obtain ⟨_, _, hplace, h⟩ := Step.bind_ok.1 h
  obtain ⟨_, _, hlocals, h⟩ := Step.bind_ok.1 h
  obtain ⟨_, _, hstack, -⟩ := Step.bind_ok.1 h
  refine ⟨(admits_of_namePlace hplace).resolve_right (by omega), fun p hp => ?_⟩
  rcases List.mem_append.1 hp with hp | hp
  · exact admits_of_nameTypes hlocals hp
  · exact admits_of_nameTypes hstack hp

/-- Naming a body goes through every kind of place. -/
theorem placed_of_nameBody {named : NamedBody} (h : image.nameBody body tables s = .ok named s') :
    tables.Placed body := by
  obtain ⟨_, _, hinstructions, h⟩ := Step.bind_ok.1 h
  obtain ⟨_, _, hhandlers, h⟩ := Step.bind_ok.1 h
  obtain ⟨_, _, hlines, h⟩ := Step.bind_ok.1 h
  obtain ⟨_, _, hvars, h⟩ := Step.bind_ok.1 h
  obtain ⟨_, _, hframes, -⟩ := Step.bind_ok.1 h
  have hhandler (entry : TableEntry) (he : entry ∈ body.exceptionTable) :
      (body.Admits entry.start.toNat ∧ body.Admits entry.stop.toNat) ∧
        body.Admits entry.handler.toNat := by
    obtain ⟨_, _, _, hentry⟩ := Step.mapM_ok hhandlers he
    exact admits_of_nameHandler hentry
  have hframe (frame : PlacedFrame) (hf : frame ∈ tables.stackMap) :
      body.Starts frame.offset ∧
        ∀ p, .uninitialized p ∈ frame.layout.locals ++ frame.layout.stack → body.Admits p := by
    obtain ⟨_, _, _, hnamed⟩ := Step.mapM_ok hframes hf
    exact starts_of_nameFrame hnamed
  constructor
  case targets =>
    intro x hx p hp
    obtain ⟨_, _, _, hnamed⟩ := Step.mapM_ok hinstructions (Array.mem_toList_iff.2 hx)
    obtain ⟨_, _, hrenamed, -⟩ := Step.bind_ok.1 hnamed
    obtain ⟨_, _, _, hplace⟩ := Instruction.mapM_ok hrenamed hp
    exact admits_of_namePlace hplace
  case ranges => exact fun entry he => (hhandler entry he).1
  case handlers => exact fun entry he => (hhandler entry he).2
  case lines =>
    intro line hline
    obtain ⟨_, _, _, hplace⟩ := Step.mapM_ok hlines (Array.mem_toList_iff.2 hline)
    exact admits_of_namePlace hplace
  case vars =>
    intro v hv
    obtain ⟨_, _, _, hnamed⟩ := Step.mapM_ok hvars (Array.mem_toList_iff.2 hv)
    exact admits_of_nameVariable hnamed
  case frames => exact fun frame hf => (hframe frame hf).1
  case allocations => exact fun frame hf => (hframe frame hf).2

/-- The code of a told method has been named, with the tables that its attributes hold. -/
theorem named_of_told {d : MethodDeclaration} {m : StoredMember} {gathered : MethodAttributes}
    {code : AttributeSpan}
    (hgathered : m.attributes.foldlM image.addMethodAttribute {} = .ok gathered)
    (htold : Tell.Succeeds (image.tellMethod skip d gathered)) (hskip : skip.code = false)
    (hcode : lastNamed "Code" m.attributes = some code) :
    ∃ named, image.readNamedBody skip d code = .ok named := by
  have hlast := last_of_foldlM (fun t span t' ht => (addMethodAttribute_ok ht).code) hgathered
  rw [hcode] at hlast
  exact (tellMethod_ok htold).2 hskip code hlast

/-- What a declaration adds to the tables of a body is the locals at the entry of its method. -/
theorem addTable_congr {d d' : MethodDeclaration} (h : image.entryLocals d = image.entryLocals d') :
    image.addTable skip d = image.addTable skip d' := by
  funext tables span
  unfold addTable
  rw [h]

/-- When nothing puts an end to the events of a class file, the body of every method whose code is
told has been read, and each place that the body or one of its tables refers to is the start of one
of its instructions or the end of its code. Frames stand before instructions. -/
theorem places_start_or_end (hevents : (image.events skip).fault = none)
    (hmembers : skip.members = false) (hskip : skip.code = false) {methods : List StoredMember}
    {m : StoredMember} {code : AttributeSpan}
    (hmethods : image.members image.methodsStart = .ok methods) (hm : m ∈ methods)
    (hcode : lastNamed "Code" m.attributes = some code) :
    ∃ body tables, image.readBody code image.readStoredBody = .ok body ∧
      body.attributes.foldlM (image.addTable skip m.method) ⟨#[], #[], [], #[]⟩ = .ok tables ∧
      tables.Placed body := by
  obtain ⟨spans, attributes, told⟩ := told_of_events hevents
  obtain ⟨gathered, d, hgathered, hd, htold⟩ := method_of_told told hmethods hm
  obtain ⟨named, hnamed⟩ := named_of_told hgathered (htold hmembers) hskip hcode
  obtain ⟨body, hbody, hnamed⟩ := Step.except_bind_ok.1 hnamed
  obtain ⟨tables, htables, hnamed⟩ := Step.except_bind_ok.1 hnamed
  refine ⟨body, tables, hbody, addTable_congr hd ▸ htables, ?_⟩
  split at hnamed
  · exact placed_of_nameBody ‹_›
  · cases hnamed

section Jumps

/-- What is read is made into other items. -/
theorem timesFrom_bind {α β : Type} {read : Scan α} {f : α → Except ClassError β} {n : Nat}
    {before all : List α} {c c' : Cursor} (h : Scan.timesFrom read before n c = .ok all c') :
    ∃ found, all = before.reverse ++ found ∧ ∀ done items : List β,
      List.Forall₂ (fun a b => f a = .ok b) found items →
      Scan.timesFrom (read >>= fun a => Step.of (f a)) done n c =
        .ok (done.reverse ++ items) c' := by
  induction n generalizing c before with
  | zero =>
    obtain ⟨rfl, rfl⟩ := Step.pure_ok.1 h
    refine ⟨[], (List.append_nil _).symm, ?_⟩
    rintro done _ ⟨⟩
    rw [List.append_nil]
    rfl
  | succ n ih =>
    obtain ⟨a, mid, ha, h⟩ := Step.bind_ok.1 h
    obtain ⟨found, rfl, hfound⟩ := ih h
    refine ⟨a :: found, ?_, ?_⟩
    · rw [List.reverse_cons, List.append_assoc]
      rfl
    · intro done items hitems
      cases hitems with
      | @cons _ b _ items hfirst hrest =>
      have hmade : (read >>= fun a => Step.of (f a)) c = .ok b mid :=
        Step.bind_ok.2 ⟨a, mid, ha, Step.of_ok.2 ⟨hfirst, rfl⟩⟩
      refine Step.bind_ok.2 ⟨b, mid, hmade, ?_⟩
      rw [hfound _ _ hrest, List.reverse_cons, List.append_assoc]
      rfl

/-- A class file with one static method that has the given code. -/
def classWithCode (code : List UInt8) : Bytes :=
  (bytes32 magic ++ [0, 0, 0, 52, 0, 6, 1, 0, 1, 65, 7, 0, 1, 1, 0, 1, 109] ++
    [1, 0, 3, 40, 41, 86, 1, 0, 4, 67, 111, 100, 101, 0, 33, 0, 2, 0, 0, 0, 0, 0, 0] ++
    [0, 1, 0, 8, 0, 3, 0, 4, 0, 1, 0, 5] ++ bytes32 (UInt32.ofNat (12 + code.length)) ++
    [0, 0, 0, 0] ++ bytes32 (UInt32.ofNat code.length) ++ code ++ [0, 0, 0, 0, 0, 0]).toArray

/-- Whether an instruction jumps to a place that may be named, or consists of its code alone. -/
def jumpsOnly (body : StoredBody) : Instruction Nat → Bool
  | .plain _ => true
  | .jump _ p => Instruction.startsAt body.instructions p || p == body.size
  | _ => false

theorem namePlace_total {p : Nat}
    (h : (Instruction.startsAt body.instructions p || p == body.size) = true) (s : Places) :
    ∃ label s', namePlace body p s = .ok label s' := by
  unfold namePlace
  rw [if_pos h]
  unfold Places.name
  split
  · exact ⟨_, _, rfl⟩
  · exact ⟨_, _, rfl⟩

/-- Names the places of an instruction at its offset. -/
def nameInstruction (body : StoredBody) (x : Nat × Instruction Nat) :
    Step Places (Nat × Instruction Label) := do
  return (x.1, ← x.2.mapM (namePlace body))

theorem nameInstructions_total {instructions : List (Nat × Instruction Nat)}
    (h : ∀ x ∈ instructions, jumpsOnly body x.2 = true) (s : Places) :
    ∃ named s', instructions.mapM (nameInstruction body) s = .ok named s' ∧
      ∀ x ∈ named, ∃ e, image.instructionEvent x.2 = .ok e := by
  induction instructions generalizing s with
  | nil => exact ⟨[], s, rfl, fun _ h => nomatch h⟩
  | cons x rest ih =>
    have hfirst : ∃ j mid, x.2.mapM (namePlace body) s = .ok j mid ∧
        ∃ e, image.instructionEvent j = .ok e := by
      have hx := h x List.mem_cons_self
      obtain ⟨offset, i⟩ := x
      cases i with
      | plain op => exact ⟨_, s, rfl, _, rfl⟩
      | jump op p =>
        obtain ⟨label, mid, hlabel⟩ := namePlace_total hx s
        exact ⟨.jump op label, mid, Step.bind_ok.2 ⟨label, mid, hlabel, rfl⟩, _, rfl⟩
      | _ => cases hx
    obtain ⟨j, mid, hj, hevent⟩ := hfirst
    obtain ⟨named, s', hnamed, hevents⟩ := ih (fun y hy => h y (List.mem_cons_of_mem _ hy)) mid
    refine ⟨(x.1, j) :: named, s', ?_, List.forall_mem_cons.2 ⟨hevent, hevents⟩⟩
    rw [List.mapM_cons]
    exact Step.bind_ok.2 ⟨(x.1, j), mid, Step.bind_ok.2 ⟨j, mid, hj, rfl⟩,
      Step.bind_ok.2 ⟨named, s', hnamed, rfl⟩⟩

/-- A body that only jumps, without tables, is told. -/
theorem tells_jumps {d : MethodDeclaration} {span : AttributeSpan}
    (hbody : image.readBody span image.readStoredBody = .ok body)
    (hjumps : ∀ x ∈ body.instructions.toList, jumpsOnly body x.2 = true) (htable : body.exceptionTable = [])
    (hattributes : body.attributes = []) :
    ∃ events, Tell.Tells (image.tellMethod {} d { code := some span }) events := by
  obtain ⟨named, s, hnamed, hevents⟩ :=
    @nameInstructions_total image _ _ hjumps Places.empty
  let result : NamedBody :=
    { maxStack := body.maxStack, maxLocals := body.maxLocals, size := body.size, places := s,
      instructions := named, handlers := [], lines := ∅, vars := [],
      frames := Std.HashMap.ofList [], attributes := [] }
  have hresult : image.nameBody body ⟨#[], #[], [], #[]⟩ Places.empty = .ok result s := by
    refine Step.bind_ok.2 ⟨named, s, hnamed, ?_⟩
    rw [htable]
    rfl
  obtain ⟨events, htold⟩ : ∃ events, Tell.Tells (image.tellBody result) events :=
    tells_body hevents
  have hread : image.readNamedBody {} d span = .ok result := by
    refine Step.except_bind_ok.2 ⟨body, hbody, Step.except_bind_ok.2 ⟨⟨#[], #[], [], #[]⟩, ?_, ?_⟩⟩
    · rw [hattributes]
      rfl
    · rw [hresult]
      rfl
  have hannotations : image.annotations {} = .ok [] := rfl
  exact ⟨_, (tells_attributes hannotations).then (.of hread (htold.then (Tell.tells_event _)))⟩

/-- A class without attributes and fields, with one method that has nothing but its code. -/
structure HasMethod (image : ClassImage) (m : StoredMember) (span : AttributeSpan)
    (body : StoredBody) : Prop where
  header : ∃ flags name superName interfaces, image.accessFlags = .ok flags ∧
    image.className = .ok name ∧ image.superName = .ok superName ∧
    image.interfaces = .ok interfaces
  attributes : image.classAttributes = .ok []
  fields : Scan.runAt image.data image.fieldsStart (Scan.counted image.readField) = .ok []
  methods : image.members image.methodsStart = .ok [m]
  method : image.methodOf m = .ok (m.method, { code := some span })
  code : lastNamed "Code" m.attributes = some span
  stored : image.readBody span image.readStoredBody = .ok body

/-- Whether a class has one method with nothing but its code, and which it is. -/
def method? (image : ClassImage) : Option (StoredMember × AttributeSpan × StoredBody) :=
  match image.accessFlags, image.className, image.superName, image.interfaces,
    image.classAttributes,
    Scan.runAt image.data image.fieldsStart (Scan.counted image.readField),
    image.members image.methodsStart with
  | .ok _, .ok _, .ok _, .ok _, .ok [], .ok [], .ok [m] =>
    match m.attributes with
    | [span] => if span.name == "Code" then
        match image.readBody span image.readStoredBody with
        | .ok body => some (m, span, body)
        | .error _ => none
      else none
    | _ => none
  | _, _, _, _, _, _, _ => none

theorem hasMethod_of_method? {m : StoredMember} {span : AttributeSpan}
    (h : image.method? = some (m, span, body)) : image.HasMethod m span body := by
  unfold method? at h
  split at h
  · rename_i flags name superName interfaces m' hflags hname hsuper hinterfaces hattributes
      hfields hmethods
    split at h
    · rename_i span' hspan
      split at h
      · rename_i hcode
        split at h
        · rename_i body' hbody
          cases h
          have hlast : lastNamed "Code" m.attributes = some span := by
            rw [hspan, lastNamed_cons, if_pos hcode]
            rfl
          refine ⟨⟨flags, name, superName, interfaces, hflags, hname, hsuper, hinterfaces⟩,
            hattributes, hfields, hmethods, ?_, hlast, hbody⟩
          unfold methodOf
          rw [hspan, List.foldlM_cons, addMethodAttribute, if_pos hcode]
          rfl
        · cases h
      · cases h
    · cases h
  · cases h

/-- A class whose one method only jumps is told. -/
theorem HasMethod.told {m : StoredMember} {span : AttributeSpan}
    (h : image.HasMethod m span body)
    (hjumps : ∀ x ∈ body.instructions.toList, jumpsOnly body x.2 = true)
    (htable : body.exceptionTable = []) (hattributes : body.attributes = []) :
    (image.events {}).fault = none := by
  obtain ⟨flags, name, superName, interfaces, hflags, hname, hsuper, hinterfaces⟩ := h.header
  obtain ⟨events, htold⟩ := tells_jumps (d := m.method) h.stored hjumps htable hattributes
  have hmethods : Scan.runAt image.data image.methodsStart (Scan.counted image.readMethod) =
      .ok [(m.method, { code := some span })] := by
    obtain ⟨c, hread⟩ := Scan.runAt_ok.1 h.methods
    obtain ⟨n, mid, hn, hread⟩ := Step.bind_ok.1 hread
    obtain ⟨_, rfl, hmade⟩ := timesFrom_bind hread
    rw [readMethod_eq]
    exact Scan.runAt_ok.2 ⟨c, Step.bind_ok.2 ⟨n, mid, hn, hmade [] _ (.cons h.method .nil)⟩⟩
  have hreads : image.ReadsAs {} [] {} {
      header := ⟨image.version, flags, name, none, superName, interfaces⟩
      methods := [(m.method, events)] } := by
    constructor
    case fields => exact ⟨[], h.fields, .nil⟩
    case methods => exact ⟨_, hmethods, .cons ⟨rfl, htold⟩ .nil⟩
    case spans_eq => exact h.attributes
    case flags => exact hflags
    case name => exact hname
    case superName => exact hsuper
    case interfaces => exact hinterfaces
    all_goals first | rfl | simp
  rw [hreads.events_eq]

/-- Whether the class with the code has one method, which consists of these instructions and only
jumps. -/
def decodesTo (code : List UInt8) (instructions : List (Nat × Instruction Nat)) : Bool :=
  match parse (classWithCode code) with
  | .error _ => false
  | .ok image => match image.method? with
    | none => false
    | some (_, _, body) => body.instructions.toList == instructions &&
        body.instructions.toList.all (jumpsOnly body ·.2) && body.exceptionTable.isEmpty &&
        body.attributes.isEmpty

/-- A method of a class that is told, with its code. -/
structure TellsBody (image : ClassImage) (m : StoredMember) (span : AttributeSpan)
    (body : StoredBody) : Prop where
  told : (image.events {}).fault = none
  methods : image.members image.methodsStart = .ok [m]
  code : lastNamed "Code" m.attributes = some span
  stored : image.readBody span image.readStoredBody = .ok body

theorem tellsBody_of_decodesTo {code : List UInt8} {instructions : List (Nat × Instruction Nat)}
    (h : decodesTo code instructions = true) :
    ∃ image m span body, parse (classWithCode code) = .ok image ∧ image.TellsBody m span body ∧
      body.instructions = instructions.toArray := by
  unfold decodesTo at h
  split at h
  · cases h
  · rename_i image himage
    split at h
    · cases h
    · rename_i m span body hmethod
      simp only [Bool.and_eq_true, List.all_eq_true, List.isEmpty_iff, beq_iff_eq] at h
      obtain ⟨⟨⟨hinstructions, hjumps⟩, htable⟩, hattributes⟩ := h
      have hm := hasMethod_of_method? hmethod
      refine ⟨image, m, span, body, himage,
        ⟨hm.told hjumps htable hattributes, hm.methods, hm.code, hm.stored⟩, ?_⟩
      rw [← hinstructions, Array.toArray_toList]

/-- A `goto` over nothing to a `return`: the target starts an instruction. -/
theorem places_start_or_end_goto_return : ∃ image m span body tables,
    parse (classWithCode [167, 0, 3, 177]) = .ok image ∧ image.TellsBody m span body ∧
      body.instructions = #[(0, .jump Opcode.goto 3), (3, .plain Opcode.return_void)] ∧
      body.attributes.foldlM (image.addTable {} m.method) ⟨#[], #[], [], #[]⟩ = .ok tables ∧
      tables.Placed body := by
  obtain ⟨image, m, span, body, himage, h, hinstructions⟩ :=
    tellsBody_of_decodesTo (show decodesTo [167, 0, 3, 177]
      [(0, .jump Opcode.goto 3), (3, .plain Opcode.return_void)] = true by decide +kernel)
  obtain ⟨body', tables, hread, htables, hplaced⟩ :=
    places_start_or_end h.told rfl rfl h.methods List.mem_cons_self h.code
  obtain rfl := Except.ok.inj (hread.symm.trans h.stored)
  exact ⟨image, m, span, body', tables, himage, h, hinstructions, htables, hplaced⟩

/-- A `goto` to the end of the code is told, although no instruction starts there. -/
theorem goto_end_told : ∃ image m span body,
    parse (classWithCode [167, 0, 3]) = .ok image ∧ image.TellsBody m span body ∧
      (0, .jump Opcode.goto 3) ∈ body.instructions ∧ ¬ body.Starts 3 := by
  obtain ⟨image, m, span, body, himage, h, hinstructions⟩ :=
    tellsBody_of_decodesTo
      (show decodesTo [167, 0, 3] [(0, .jump Opcode.goto 3)] = true by decide +kernel)
  refine ⟨image, m, span, body, himage, h, ?_, ?_⟩
  · rw [hinstructions]
    exact Array.mem_of_getElem? (i := 0) rfl
  · rintro ⟨i, hi⟩
    rw [hinstructions, ← Array.mem_toList_iff] at hi
    cases List.mem_singleton.1 hi

end Jumps

end ClassImage

end JvmClass
