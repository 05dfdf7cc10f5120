import JvmClass.Proofs.Assembly.Members
import JvmClass.Proofs.Code.Sequence
import JvmClass.Proofs.Reencoding.Completing
import JvmClass.Proofs.Reencoding.Written

/-!
# Stored bodies read back

The attribute that holds a body reads back as the body that was stored: its instructions, a handler
for each of those whose range holds code, its lines, its variables, its frames and the attributes
that are not interpreted (`ClassImage.Rereads`).
-/

namespace JvmClass

open ConstantPool (Gives)

namespace LabelGraph

variable {g : LabelGraph}

/-- The content that stores lines, if there are any. -/
def StoresLines (g : LabelGraph) (lines : List (UInt16 × Label)) : Option AttributeBody → Prop
  | none => lines = []
  | some body => ∃ stored, body = .lineNumberTable stored ∧
      List.Forall₂ (fun x line => g.offset x.2 = .ok line.start.toNat ∧ line.line =
      x.1) lines stored

theorem offset_of_codeOffset {label : Label} {place : UInt16} (h : g.codeOffset label = .ok place) :
    g.offset label = .ok place.toNat := by
  obtain ⟨offset, hoffset, h⟩ := Step.except_bind_ok.1 h
  split at h
  · rename_i hlt
    cases h
    rw [UInt16.toNat_ofNat_of_lt' hlt, hoffset]
  · cases h

theorem gives_lineNumberTable (g : LabelGraph) (lines : List (UInt16 × Label)) :
    Gives (g.lineNumberTable lines) fun image attributes => ∃ body,
      StoresLines g lines body ∧ Attribute.Listed attributes image body.toList := by
  refine ConstantPool.gives_ite (fun hempty => ?_) fun _ => ?_
  · refine (ConstantPool.gives_pure []).mono ?_
    rintro image _ rfl
    exact ⟨none, List.isEmpty_iff.1 hempty, .nil⟩
  · refine ((ConstantPool.gives_of (lines.mapM g.storedLine)).bind fun stored =>
      Attribute.gives_single (.lineNumberTable stored)).mono ?_
    rintro image attributes ⟨stored, hstored, hlisted⟩
    refine ⟨some _, ⟨stored, rfl, (forall₂_of_mapM hstored).imp fun x line h => ?_⟩, hlisted⟩
    obtain ⟨start, hstart, h⟩ := Step.except_bind_ok.1 h
    cases h
    exact ⟨offset_of_codeOffset hstart, rfl⟩

/-- A variable as it is stored. -/
structure StoresVariable (g : LabelGraph) (image : ClassImage) (v : VariableRange Label)
    (stored : LocalVariable) : Prop where
  start : g.offset v.start = .ok stored.start.toNat
  stop : g.offset v.stop = .ok (stored.start.toNat + stored.length.toNat)
  name : image.utf8 stored.name = .ok v.name
  descriptor : image.utf8 stored.descriptor = .ok v.descriptor
  slot : stored.slot = v.slot

theorem gives_storedVariable (g : LabelGraph) (v : VariableRange Label) :
    Gives (g.storedVariable v) fun image stored => g.StoresVariable image v stored := by
  refine ⟨stable_storedVariable g v, fun {p stored p' image} h hi => ?_⟩
  obtain ⟨start, _, hof, h⟩ := Step.bind_ok.1 h
  obtain ⟨hstart, rfl⟩ := Step.of_ok.1 hof
  obtain ⟨stop, _, hof', h⟩ := Step.bind_ok.1 h
  obtain ⟨hstop, rfl⟩ := Step.of_ok.1 hof'
  rw [Step.guard_ok] at h
  obtain ⟨hle, h⟩ := h
  have hgives := (ConstantPool.gives_utf8 v.name).bind fun name =>
    (ConstantPool.gives_utf8 v.descriptor).map (f := fun descriptor =>
      LocalVariable.mk start (stop - start) name descriptor v.slot)
  obtain ⟨name, hname, descriptor, hdescriptor, rfl⟩ := hgives.answer h hi
  refine ⟨offset_of_codeOffset hstart, ?_, hname, hdescriptor, rfl⟩
  have hle' : start.toNat ≤ stop.toNat := UInt16.le_iff_toNat_le.1 (UInt16.not_lt.1 hle)
  rw [offset_of_codeOffset hstop]
  simp only [UInt16.toNat_sub_of_le _ _ (UInt16.not_lt.1 hle)]
  congr 1
  omega

/-- The content that stores variables, if there are any. -/
def StoresVariables (g : LabelGraph) (image : ClassImage) (vars : List (VariableRange Label)) :
    Option AttributeBody → Prop
  | none => vars = []
  | some body => ∃ stored, body = .localVariableTable stored ∧
      List.Forall₂ (g.StoresVariable image) vars stored

theorem gives_localVariableTable (g : LabelGraph) (vars : List (VariableRange Label)) :
    Gives (g.localVariableTable vars) fun image attributes => ∃ body,
      StoresVariables g image vars body ∧ Attribute.Listed attributes image body.toList := by
  refine ConstantPool.gives_ite (fun hempty => ?_) fun _ => ?_
  · refine (ConstantPool.gives_pure []).mono ?_
    rintro image _ rfl
    exact ⟨none, List.isEmpty_iff.1 hempty, .nil⟩
  · refine ((ConstantPool.gives_mapM (gives_storedVariable g) vars).bind fun stored =>
      Attribute.gives_single (.localVariableTable stored)).mono ?_
    rintro image attributes ⟨stored, hstored, hlisted⟩
    exact ⟨some _, ⟨stored, rfl, hstored⟩, hlisted⟩

end LabelGraph

/-- The entry of an exception table is that of a handler. -/
structure ExceptionHandler.Stored (g : LabelGraph) (image : ClassImage) (h : ExceptionHandler)
    (entry : TableEntry) : Prop where
  start : g.offset h.start = .ok entry.start.toNat
  stop : g.offset h.stop = .ok entry.stop.toNat
  handler : g.offset h.handler = .ok entry.handler.toNat
  catchType : image.cls? entry.catchType = .ok h.catchType

theorem Handlers.gives_table (g : LabelGraph) (handlers : Handlers) :
    Gives (Handlers.table g handlers) fun image table => ∃ entries,
      List.Forall₂ (ExceptionHandler.Stored g image) (handlers.filter
      (Handlers.holdsCode g)) entries ∧
      Scan.Reads (Scan.counted ClassImage.readTableEntry) table.toList entries := by
  refine ⟨Handlers.stable_table g handlers, fun {p table p' image} h hi => ?_⟩
  rw [Handlers.table_ok] at h
  obtain ⟨-, entries, hall, hreads⟩ := Handlers.put_ok h
  exact ⟨entries, hall.imp fun _ _ hs => ⟨hs.start, hs.stop, hs.handler, hs.catchType image hi⟩,
    hreads⟩

/-- The content that stores frames, if there are any. -/
def StoresMap (image : ClassImage) (locals : List NamedType) (frames :
    List (Nat × Layout NamedType)) : Option AttributeBody → Prop
  | none => frames = []
  | some body => body.name = "StackMapTable" ∧ StoresFrames image locals frames body

theorem HoldsFrames.storesMap {image : ClassImage} {locals : List NamedType}
    {frames : List (Nat × Layout NamedType)} {attributes : List Attribute}
    (h : HoldsFrames image locals frames attributes) : ∃ body, StoresMap image locals frames body ∧
      Attribute.Listed attributes image body.toList := by
  rcases h with ⟨hframes, rfl⟩ | ⟨body, hname, hlisted, hstores⟩
  · exact ⟨none, hframes, .nil⟩
  · exact ⟨some body, ⟨hname, hstores⟩, hlisted⟩

namespace MethodBuilder

variable {b : MethodBuilder} {g : LabelGraph}

/-- What the attribute of a body holds. -/
structure StoresBody (b : MethodBuilder) (g : LabelGraph) (stack locals : UInt16)
    (frames : List (Nat × Layout NamedType)) (code : Bytes) (image : ClassImage) (a : Attribute)
    (entries : List TableEntry) (table : Bytes) (attributes : List Attribute)
    (lines vars stackMap : Option AttributeBody) : Prop where
  body : a.2 = .code stack locals code table attributes
  named : a.Named image
  handlers : List.Forall₂ (ExceptionHandler.Stored g image)
    (b.handlers.toList.filter (Handlers.holdsCode g)) entries
  reads : Scan.Reads (Scan.counted ClassImage.readTableEntry) table.toList entries
  hasLines : g.StoresLines b.lines.toList lines
  hasVars : g.StoresVariables image b.vars.toList vars
  hasMap : StoresMap image b.entryFrame.layout.locals frames stackMap
  listed : Attribute.Listed attributes image (lines.toList ++ (vars.toList ++
    (b.codeAttributes.toList.map (fun a => .raw a.name a.data) ++ stackMap.toList)))

theorem gives_codeRequest (b : MethodBuilder) (g : LabelGraph) (stack locals : UInt16)
    (frames : List (Nat × Layout NamedType)) (code : Bytes) :
    Gives (b.codeRequest g stack locals frames code) fun image a =>
      ∃ entries table attributes lines vars stackMap,
        StoresBody b g stack locals frames code image a entries table attributes lines vars
          stackMap := by
  refine ((gives_stackMapTable _ frames).bind fun _ => (Handlers.gives_table g _).bind fun _ =>
    (g.gives_lineNumberTable _).bind fun _ => (g.gives_localVariableTable _).bind fun _ =>
    (Attribute.gives_makeRaw _).bind fun _ => (ConstantPool.gives_of _).bind fun _ =>
    Attribute.gives_make _).mono ?_
  rintro image a ⟨_, hframes, table, ⟨entries, hentries, htable⟩, _, ⟨lines, hlines, h1⟩, _,
    ⟨vars, hvars, h2⟩, _, h3, _, -, hbody, hnamed⟩
  obtain ⟨stackMap, hstackMap, h4⟩ := hframes.storesMap
  refine ⟨entries, table, _, lines, vars, stackMap, hbody, hnamed, hentries, htable, hlines, hvars,
    hstackMap, ?_⟩
  simpa only [List.append_assoc] using ((h1.append h2).append h3).append h4

end MethodBuilder

namespace ClassImage

variable {image : ClassImage} {g : LabelGraph} {d : MethodDeclaration} {tables : BodyTables}

/-- Names of attributes of a body that are interpreted. -/
def isBodyTable (name : String) : Bool :=
  name == "LineNumberTable" || name == "LocalVariableTable" || name == "StackMapTable"

theorem foldlM_lines (tables : BodyTables) {lines : List (UInt16 × Label)}
    {body : Option AttributeBody} {span : Option AttributeSpan} (h : g.StoresLines lines body)
    (hfits : ∀ b ∈ body, b.Fits) (hfound : image.Found body span) : ∃ stored : List (Nat × UInt16),
      span.toList.foldlM (image.addTable {} d) tables =
        .ok { tables with lines := tables.lines ++ stored } ∧
      List.Forall₂ (fun x s => g.offset x.2 = .ok s.1 ∧ s.2 = x.1) lines stored := by
  cases hfound with
  | none =>
    obtain rfl : lines = [] := h
    exact ⟨[], by simp [pure, Except.pure], .nil⟩
  | some hspan =>
    obtain ⟨stored, rfl, hall⟩ := h
    have hchunks : List.Forall₂ (Scan.Reads readLine) (stored.map LineNumber.encode)
        (stored.map fun line => (line.start.toNat, line.line)) := by
      rw [List.forall₂_map_left_iff, List.forall₂_map_right_iff]
      exact List.forall₂_same.2 fun line _ => (Scan.reads_u16 line.start).bind
        (Scan.reads_u16 line.line).map
    have hcount : stored.length < 65536 := hfits _ rfl
    have hread := Scan.reads_counted hchunks (by rwa [List.length_map])
    rw [List.length_map] at hread
    have hread' := readBody_of_holds hspan
      (hread.cast (by simp [AttributeBody.encode, Put.countedBytes, List.flatMap_def]))
    have hname : _ = "LineNumberTable" := hspan.name
    refine ⟨stored.map fun line => (line.start.toNat, line.line), ?_,
      List.forall₂_map_right_iff.2 hall⟩
    rw [Option.toList_some, foldlM_singleton]
    simp [addTable, hname, hread', bind, Except.bind, pure, Except.pure]

/-- A variable as it is read. -/
structure VariableRead (g : LabelGraph) (image : ClassImage) (v : VariableRange Label)
    (stored : StoredVariable) : Prop where
  start : g.offset v.start = .ok stored.start
  stop : g.offset v.stop = .ok stored.stop
  name : image.utf8 stored.name = .ok v.name
  descriptor : image.utf8 stored.descriptor = .ok v.descriptor
  slot : stored.slot = v.slot

theorem foldlM_vars {vars : List (VariableRange Label)} {body : Option AttributeBody}
    {span : Option AttributeSpan} (h : g.StoresVariables image vars body)
    (hfits : ∀ b ∈ body, b.Fits) (hfound : image.Found body span) : ∃ stored : List StoredVariable,
      span.toList.foldlM (image.addTable {} d) tables =
        .ok { tables with vars := tables.vars ++ stored } ∧
      List.Forall₂ (VariableRead g image) vars stored := by
  cases hfound with
  | none =>
    obtain rfl : vars = [] := h
    exact ⟨[], by simp [pure, Except.pure], .nil⟩
  | some hspan =>
    obtain ⟨stored, rfl, hall⟩ := h
    have hchunks : List.Forall₂ (Scan.Reads readVariable) (stored.map LocalVariable.encode)
        (stored.map fun v => StoredVariable.mk v.start.toNat (v.start.toNat + v.length.toNat) v.name
          v.descriptor v.slot) := by
      rw [List.forall₂_map_left_iff, List.forall₂_map_right_iff]
      exact List.forall₂_same.2 fun v _ => (Scan.reads_u16 v.start).bind
        ((Scan.reads_u16 v.length).bind ((Scan.reads_u16 v.name).bind
          ((Scan.reads_u16 v.descriptor).bind (Scan.reads_u16 v.slot).map)))
    have hcount : stored.length < 65536 := hfits _ rfl
    have hread := Scan.reads_counted hchunks (by rwa [List.length_map])
    rw [List.length_map] at hread
    have hread' := readBody_of_holds hspan
      (hread.cast (by simp [AttributeBody.encode, Put.countedBytes, List.flatMap_def]))
    have hname : _ = "LocalVariableTable" := hspan.name
    refine ⟨stored.map fun v => ⟨v.start.toNat, v.start.toNat + v.length.toNat, v.name,
      v.descriptor, v.slot⟩, ?_, List.forall₂_map_right_iff.2 (hall.imp fun v s hs =>
        ⟨hs.start, hs.stop, hs.name, hs.descriptor, hs.slot⟩)⟩
    rw [Option.toList_some, foldlM_singleton]
    simp [addTable, hname, hread', bind, Except.bind, pure, Except.pure]

theorem foldlM_frames {locals : List NamedType} {frames : List (Nat × Layout NamedType)}
    {body : Option AttributeBody} {span : Option AttributeSpan}
    (h : StoresMap image locals frames body) (hlocals : image.entryLocals d = .ok locals)
    (hfits : ∀ b ∈ body, b.Fits) (hfound : image.Found body span) (hnone : tables.stackMap = []) :
    span.toList.foldlM (image.addTable {} d) tables =
      .ok { tables with stackMap := frames.map placedFrame } := by
  cases hfound with
  | none =>
    obtain rfl : frames = [] := h
    rw [List.map_nil, ← hnone]
    rfl
  | some hspan =>
    have hread := readBody_of_holds hspan (h.2 (hfits _ rfl))
    have hname := hspan.name.trans h.1
    rw [Option.toList_some, foldlM_singleton]
    simp [addTable, hname, hlocals, hread, bind, Except.bind, pure, Except.pure]

theorem foldlM_raw {raws : List RawAttribute} {spans : List AttributeSpan}
    (hnames : ∀ a ∈ raws, isBodyTable a.name = false)
    (hspanned : image.Spanned (raws.map fun a => .raw a.name a.data) spans) :
    spans.foldlM (image.addTable {} d) tables =
      .ok { tables with attributes := tables.attributes ++ raws } := by
  induction raws generalizing spans tables with
  | nil =>
    cases hspanned
    simp [pure, Except.pure]
  | cons a rest ih =>
    obtain _ | ⟨hspan, hrest⟩ := hspanned
    rename_i span spans
    obtain ⟨hfirst, hnames⟩ := List.forall_mem_cons.1 hnames
    have hname : span.name = a.name := hspan.name
    have hraw : image.raw span = a := raw_of_holds hspan rfl
    simp only [isBodyTable, Bool.or_eq_false_iff, beq_eq_false_iff_ne, ne_eq] at hfirst
    have hstep : image.addTable {} d tables span =
        .ok { tables with attributes := tables.attributes.push a } := by
      simp [addTable, hname, hfirst.1.1, hfirst.1.2, hfirst.2, hraw, pure, Except.pure]
    rw [List.foldlM_cons, hstep]
    refine (ih hnames hrest).trans ?_
    simp

/-- The body that is read back from where a body was stored. -/
structure Rereads (image : ClassImage) (b : MethodBuilder) (g : LabelGraph) (stack locals : UInt16)
    (frames : List (Nat × Layout NamedType)) (instructions : Array (Nat × Instruction Nat)) (size :
    Nat) (body : StoredBody) (tables : BodyTables) : Prop where
  maxs : body.maxStack = stack ∧ body.maxLocals = locals
  size : body.size = size
  instructions : body.instructions = instructions
  handlers : List.Forall₂ (ExceptionHandler.Stored g image)
    (b.handlers.toList.filter (Handlers.holdsCode g)) body.exceptionTable
  lines : List.Forall₂ (fun x s => g.offset x.2 = .ok s.1 ∧ s.2 = x.1) b.lines.toList
    tables.lines.toList
  vars : List.Forall₂ (VariableRead g image) b.vars.toList tables.vars.toList
  stackMap : tables.stackMap = frames.map placedFrame
  attributes : tables.attributes = b.codeAttributes

theorem reread {b : MethodBuilder} {stack locals : UInt16} {frames : List (Nat × Layout NamedType)}
    {code : Bytes} {a : Attribute} {pool pool' : ConstantPool} {span : AttributeSpan}
    {instructions : Array (Nat × Instruction Nat)}
    (hrequest : b.codeRequest g stack locals frames code pool = .ok a pool')
    (hi : image.Holds pool') (hfits : a.2.Fits) (hspan : span.Holds image.data a)
    (hlocals : image.entryLocals d = .ok b.entryFrame.layout.locals)
    (hnames : ∀ raw ∈ b.codeAttributes, isBodyTable raw.name = false) (hsize : code.size < 65536)
    (hdecode : Instruction.decode code = .ok instructions) : ∃ body tables,
      image.readBody span image.readStoredBody = .ok body ∧
      body.attributes.foldlM (image.addTable {} d) ⟨#[], #[], [], #[]⟩ = .ok tables ∧
      image.Rereads b g stack locals frames instructions code.size body tables := by
  obtain ⟨entries, table, attributes, lines, vars, stackMap, h⟩ :=
    (b.gives_codeRequest g stack locals frames code).answer hrequest hi
  have hbody := hspan.body
  rw [h.body] at hfits hbody
  obtain ⟨hcount, hall⟩ : attributes.length < 65536 ∧ AttributeBody.AllFit attributes := hfits
  have hlength : (UInt32.ofNat code.size).toNat = code.toList.length := by
    rw [UInt32.toNat_ofNat_of_lt' (Nat.lt_trans hsize (by decide)), Array.length_toList]
  have hfinds : Scan.Finds image.data image.readStoredBody
      (AttributeBody.encode (.code stack locals code table attributes)) fun body => ∃ spans,
        body = ⟨stack, locals, code.size, instructions, entries, spans⟩ ∧
          image.Holding attributes spans := by
    refine (Scan.reads_u16 stack).finds.bind ?_
    rintro _ rfl
    refine (Scan.reads_u16 locals).finds.bind ?_
    rintro _ rfl
    refine (Scan.reads_u32 (UInt32.ofNat code.size)).finds.bind ?_
    rintro _ rfl
    rw [hlength]
    refine (Scan.reads_bytes code.toList).finds.bind ?_
    rintro _ rfl
    refine Scan.Finds.after (a := instructions) ?_ ?_
    · rw [Array.toArray_toList, hdecode]
      exact Scan.reads_of _
    refine h.reads.finds.bind ?_
    rintro _ rfl
    rw [AttributeBody.encodeAll_eq]
    refine (finds_readAttributes hcount hall h.listed.named).before fun spans hspans => ?_
    exact Scan.finds_pure ⟨spans, by rw [Array.length_toList], hspans⟩
  obtain ⟨body, hread, spans, rfl, hholding⟩ := hfinds.runAt hbody
  have hspanned := hholding.spanned
  rw [h.listed.bodies] at hspanned
  obtain ⟨s1, _, rfl, hs1, hspanned⟩ := hspanned.optional
  obtain ⟨s2, _, rfl, hs2, hspanned⟩ := hspanned.optional
  obtain ⟨s3, rest, rfl, hs3, hspanned⟩ := hspanned.split
  rw [← List.append_nil stackMap.toList] at hspanned
  obtain ⟨s4, _, rfl, hs4, hspanned⟩ := hspanned.optional
  cases hspanned
  have hfit (body : AttributeBody) (hmem : body ∈ attributes.map Prod.snd) : body.Fits := by
    obtain ⟨a, ha, rfl⟩ := List.mem_map.1 hmem
    exact (hall.of_mem ha).2
  rw [h.listed.bodies] at hfit
  obtain ⟨storedLines, hfold1, hlines⟩ := foldlM_lines (d := d) ⟨#[], #[], [], #[]⟩
    h.hasLines (fun body hbody => hfit body (by simp [Option.mem_def.1 hbody])) hs1
  obtain ⟨storedVars, hfold2, hvars⟩ := foldlM_vars (d := d) h.hasVars
    (fun body hbody => hfit body (by simp [Option.mem_def.1 hbody])) hs2
  have hfold : ([s1.toList, s2.toList, s3, s4.toList].flatten).foldlM (image.addTable {} d)
      ⟨#[], #[], [], #[]⟩ = .ok ⟨storedLines.toArray, storedVars.toArray, frames.map placedFrame,
        b.codeAttributes⟩ := by
    rw [List.flatten_cons, List.foldlM_append]
    refine Step.except_bind_ok.2 ⟨_, hfold1, ?_⟩
    rw [List.flatten_cons, List.foldlM_append]
    refine Step.except_bind_ok.2 ⟨_, hfold2, ?_⟩
    rw [List.flatten_cons, List.foldlM_append]
    refine Step.except_bind_ok.2 ⟨_, foldlM_raw
      (fun a ha => hnames a (Array.mem_toList_iff.1 ha)) hs3, ?_⟩
    rw [List.flatten_cons, List.flatten_nil, List.append_nil]
    refine (foldlM_frames h.hasMap hlocals (fun body hbody => hfit body
      (by simp [Option.mem_def.1 hbody])) hs4 rfl).trans ?_
    simp
  refine ⟨_, ⟨storedLines.toArray, storedVars.toArray, frames.map placedFrame, b.codeAttributes⟩,
    hread, ?_, ⟨rfl, rfl⟩, rfl, rfl, h.handlers, hlines, hvars, rfl, rfl⟩
  simpa using hfold

end ClassImage

end JvmClass
