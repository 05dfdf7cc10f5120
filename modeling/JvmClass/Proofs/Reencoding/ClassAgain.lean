import JvmClass.Proofs.Assembly.WritingAgain
import JvmClass.Proofs.Reencoding.Mimicking

/-!
# A class is told as it was stored

Content that a new builder takes up and writes is found in the class file that was written, but for
inner classes that had an entry before, and for bodies, of which what is told has been settled. What
is told then leads a twin to the same class file (`ClassBuilder.content_again`).
-/

namespace JvmClass

open Scan (Finds)
open Tell (Tells)

namespace ClassContent

/-- The events of a class before its inner classes. -/
def front (c : ClassContent) : List ClassEvent :=
  .header c.header :: (c.sourceFile.toList.map .sourceFile ++ (c.nestHost.toList.map .nestHost ++
    (c.enclosing.toList.map enclosingEvent ++
    (c.annotations.map (fun (a, visible) => .annotated a visible) ++
    (c.attributes.map .attribute ++ c.nestMembers.map .nestMember)))))

def fieldEvents (c : ClassContent) : List ClassEvent := c.fields.map fun (d, events) =>
    .field d events

def methodEvents (c : ClassContent) : List ClassEvent :=
  c.methods.map fun (d, events) => .method d events

theorem events_eq_front (c : ClassContent) : c.events = c.front ++ (c.innerClasses.map innerEvent ++
    (c.fieldEvents ++ (c.methodEvents ++ [.finish]))) := by
  simp [events, front, fieldEvents, methodEvents]

theorem isPart_front (c : ClassContent) : ∀ e ∈ c.front, e.IsPart := by
  simp only [front, List.forall_mem_cons, List.forall_mem_append, List.forall_mem_map]
  exact ⟨trivial, fun _ _ => trivial, fun _ _ => trivial, fun _ _ => trivial, fun _ _ => trivial,
    fun _ _ => trivial, fun _ _ => trivial⟩

theorem isPart_innerEvent (entries : List InnerEntry) :
    ∀ e ∈ entries.map innerEvent, e.IsPart := by
  exact List.forall_mem_map.2 fun _ _ => trivial

theorem raw_front (c : ClassContent) : c.front.filterMap ClassEvent.raw? = c.attributes := by
  simp [front, ClassEvent.raw?, enclosingEvent, List.filterMap_cons, List.filterMap_append,
    List.filterMap_map, Function.comp_def]

/-- What the events of a class say is its content, of which the first entry for an inner class
counts. -/
theorem parts_of_events (c : ClassContent) : ClassParts.of c.events =
    { header := some c.header
      sourceFile := c.sourceFile
      nestHost := c.nestHost
      enclosing := c.enclosing
      annotations := c.annotations
      nestMembers := c.nestMembers
      innerClasses := firstEntries c.innerClasses
      fields := (ClassParts.of c.events).fields
      methods := (ClassParts.of c.events).methods } := by
  have henclosing : ∀ enclosing : String × Option (String × String), ClassEvent.enclosing?
      (.enclosingMethod enclosing.1 (enclosing.2.map Prod.fst) (enclosing.2.map Prod.snd)) =
        some enclosing := by
    rintro ⟨owner, _ | ⟨name, descriptor⟩⟩ <;> rfl
  have hother (e : ClassEvent) (h : ∀ owner name descriptor,
      e ≠ .enclosingMethod owner name descriptor) : e.enclosing? = none := by
    cases e <;> first | rfl | exact absurd rfl (h _ _ _)
  have hlast {α : Type} (value : Option α) : value.toList.getLast? = value := by
    cases value <;> rfl
  simp [ClassParts.of, events, ClassEvent.header?, ClassEvent.sourceFile?, ClassEvent.nestHost?,
    ClassEvent.annotation?, ClassEvent.nestMember?, ClassEvent.innerClass?, innerEvent,
    enclosingEvent, List.filterMap_cons, List.filterMap_append, List.filterMap_map,
    Function.comp_def, henclosing, hother, hlast]

end ClassContent

namespace ClassBuilder

variable {image image' : ClassImage} {b b' : ClassBuilder} {u : Unit} {final : ConstantPool}

/-- **Fields are found as they were told, and do the same again.** -/
theorem fields_again {fields : List (FieldDeclaration × List FieldEvent)}
    (hproper : ∀ field ∈ fields, AccessFlags.decode field.1.flags.bits = field.1.flags ∧
      ∃ attributes : MemberAttributes,
        (∀ span ∈ attributes.others.toList, Member.isFieldAttribute span.name = false) ∧
        Tells (image.tellField attributes) field.2)
    (hfed : feedAll (fields.map fun (d, events) => .field d events) b = .ok u b') :
    b' = { b with pool := b'.pool, fields := b'.fields } ∧ b.pool.Extended b'.pool ∧
      ∃ members, b'.fields.toList = b.fields.toList ++ members ∧ ∀ final, b'.pool.Grows final →
        (∀ image' : ClassImage, image'.Holds final → List.Forall₂ (fun m field => m.Fits →
          Finds image'.data image'.readField m.encode fun item => item.1 = field.1 ∧
            Tells (image'.tellField item.2) field.2) members fields) ∧
        ∀ c, b.Twin final c → ∃ c',
          feedAll (fields.map fun (d, events) => .field d events) c = .ok () c' ∧
            b'.Twin final c' := by
  induction fields generalizing b with
  | nil =>
    obtain ⟨-, rfl⟩ := Step.pure_ok.1 hfed
    exact ⟨rfl, .refl, [], (List.append_nil _).symm,
      fun final _ => ⟨fun _ _ => .nil, fun c hc => ⟨c, rfl, hc⟩⟩⟩
  | cons field rest ih =>
    obtain ⟨⟨hflags, attributes, hnames, htold⟩, hrest⟩ := List.forall_mem_cons.1 hproper
    obtain ⟨_, mid, hfirst, hlater⟩ := Step.bind_ok.1 hfed
    obtain ⟨m, hmid, hext, hfield⟩ := field_again hflags hnames htold hfirst
    obtain ⟨hb', hext', members, hmembers, hagain⟩ := ih hrest hlater
    refine ⟨?_, hext.trans hext', m :: members, ?_, fun final hfinal => ?_⟩
    · rw [hb', hmid]
    · rw [hmembers, hmid, Array.toList_push, List.append_assoc]
      rfl
    · obtain ⟨hfinds, hrepeats⟩ := hfield final (hext'.grows.trans hfinal)
      obtain ⟨hfindsRest, hrepeatsRest⟩ := hagain final hfinal
      refine ⟨fun image' hi => .cons (hfinds image' hi) (hfindsRest image' hi), fun c hc => ?_⟩
      obtain ⟨next, hnext, htwin⟩ := hrepeats c hc
      obtain ⟨c', hc', htwin⟩ := hrepeatsRest next htwin
      exact ⟨c', Step.bind_ok.2 ⟨(), next, hnext, hc'⟩, htwin⟩

/-- A method is taken up between two states of the builder. -/
structure MethodStage where
  declaration : MethodDeclaration
  before : ClassBuilder
  after : ClassBuilder

/-- What is told of a method of a class file leads a twin from the one state to the other. -/
def MethodStage.Repeats (stage : MethodStage) (final : ConstantPool) (image : ClassImage)
    (item : MethodDeclaration × ClassImage.MethodAttributes) : Prop :=
  item.1 = stage.declaration ∧ ∃ events, Tells (image.tellMethod
  {} stage.declaration item.2) events ∧
    ∀ c, stage.before.Twin final c →
      ∃ c', feed (.method stage.declaration events) c = .ok () c' ∧ stage.after.Twin final c'

/-- **Methods are found as they were told, and what is told of them then does the same again.** -/
theorem methods_again {methods : List (MethodDeclaration × List MethodEvent)}
    (hproper : ∀ method ∈ methods, AccessFlags.decode method.1.flags.bits = method.1.flags ∧
      ∃ attributes : ClassImage.MethodAttributes,
        (∀ span ∈ attributes.common.others.toList,
          Member.isMethodAttribute span.name = false) ∧
        Tells (image.tellMethod {} method.1 attributes) method.2)
    (hplainly : b.compute = ⟨false, false⟩)
    (hfed : feedAll (methods.map fun (d, events) => .method d events) b = .ok u b') :
    b' = { b with pool := b'.pool, methods := b'.methods } ∧ b.pool.Extended b'.pool ∧
      ∃ (members : List Member) (stages : List MethodStage),
        b'.methods.toList = b.methods.toList ++ members ∧
        ∀ final (image' : ClassImage), b'.pool.Grows final → image'.Holds final →
        (∀ header, b.header = some header → ∃ name, image'.className = .ok name ∧
          ClassName.parse name = .ok header.name) →
        List.Forall₂ (fun m stage => m.Fits →
          Finds image'.data image'.readMethod m.encode
          (stage.Repeats final image')) members stages ∧
        ∀ items, List.Forall₂ (fun stage item => MethodStage.Repeats stage final image' item) stages
          items →
          ∃ told : List (MethodDeclaration × List MethodEvent),
            List.Forall₂ (fun method item => item.1 = method.1 ∧
              Tells (image'.tellMethod {} item.1 item.2) method.2) told items ∧
            ∀ c, b.Twin final c → ∃ c',
              feedAll (told.map fun (d, events) => .method d events) c = .ok () c' ∧
                b'.Twin final c' := by
  induction methods generalizing b with
  | nil =>
    obtain ⟨-, rfl⟩ := Step.pure_ok.1 hfed
    refine ⟨rfl, .refl, [], [], (List.append_nil _).symm, fun final image' _ _ _ => ⟨.nil, ?_⟩⟩
    rintro _ ⟨⟩
    exact ⟨[], .nil, fun c hc => ⟨c, rfl, hc⟩⟩
  | cons method rest ih =>
    obtain ⟨⟨hflags, attributes, hnames, htold⟩, hrest⟩ := List.forall_mem_cons.1 hproper
    obtain ⟨_, mid, hfirst, hlater⟩ := Step.bind_ok.1 hfed
    obtain ⟨m, hmid, hext, hmethod⟩ := method_again hflags hnames hplainly htold hfirst
    obtain ⟨hb', hext', members, stages, hmembers, hagain⟩ :=
      ih hrest (by rw [hmid]; exact hplainly) hlater
    refine ⟨?_, hext.trans hext', m :: members, ⟨method.1, b, mid⟩ :: stages, ?_,
      fun final image' hfinal hi hclass => ?_⟩
    · rw [hb', hmid]
    · rw [hmembers, hmid, Array.toList_push, List.append_assoc]
      rfl
    · obtain ⟨hfinds, hrepeats⟩ := hagain final image' hfinal hi (by rw [hmid]; exact hclass)
      refine ⟨.cons (hmethod final image' (hext'.grows.trans hfinal) hi hclass) hfinds, ?_⟩
      rintro _ (_ | @⟨_, item, _, items, ⟨hd, events, htells, hagain⟩, hitems⟩)
      obtain ⟨told, htold, hrest⟩ := hrepeats items hitems
      refine ⟨(method.1, events) :: told, .cons ⟨hd, hd ▸ htells⟩ htold, fun c hc => ?_⟩
      obtain ⟨next, hnext, htwin⟩ := hagain c hc
      obtain ⟨c', hc', htwin⟩ := hrest next htwin
      exact ⟨c', Step.bind_ok.2 ⟨(), next, hnext, hc'⟩, htwin⟩

/-- What was recorded of content is stored, if the attributes are. -/
theorem Recorded.stores_content {content : ClassContent} {header : StoredHeader}
    (told : List (MethodDeclaration × List MethodEvent))
    (h : b.Recorded (.of content.events) image') (hproper : image.Proper content)
    (hheader : b.header = some header) (hrecords : header.Records image' content.header)
    (hattributes : b.attributes.toList = content.attributes) :
    b.Stores image' { content with
      innerClasses := firstEntries content.innerClasses
      methods := told } := by
  rw [content.parts_of_events] at h
  exact {
    header := ⟨header, hheader, hrecords⟩
    headerFlags := hproper.headerFlags
    sourceFile := h.sourceFile
    nestHost := h.nestHost
    enclosing := h.enclosing
    annotations := by rw [h.annotations]; exact hproper.told
    attributes := hattributes
    names := hproper.names
    nestMembers := h.nestMembers
    innerClasses := h.innerClasses
    innerFlags := fun c hc => hproper.innerFlags c (mem_of_firstEntries hc) }

/-- The stages of a builder that takes up the content of a class. -/
structure ContentRun (content : ClassContent) (b opened entered declared b' : ClassBuilder) :
    Prop where
  front : feedAll content.front b = .ok () opened
  inner : feedAll (content.innerClasses.map ClassContent.innerEvent) opened = .ok () entered
  fields : feedAll content.fieldEvents entered = .ok () declared
  methods : feedAll content.methodEvents declared = .ok () b'
  finish : feedAll [.finish] b' = .ok () b'

theorem contentRun_of_feedAll {content : ClassContent} (h : feedAll content.events b = .ok u b') :
    ∃ opened entered declared, ContentRun content b opened entered declared b' := by
  rw [content.events_eq_front] at h
  obtain ⟨opened, hfront, h⟩ := feedAll_append.1 h
  obtain ⟨entered, hinner, h⟩ := feedAll_append.1 h
  obtain ⟨declared, hfields, h⟩ := feedAll_append.1 h
  obtain ⟨last, hmethods, h⟩ := feedAll_append.1 h
  obtain ⟨_, _, hfinish, hend⟩ := Step.bind_ok.1 h
  obtain ⟨-, rfl⟩ := Step.pure_ok.1 hend
  obtain rfl := endClass_ok hfinish
  exact ⟨opened, entered, declared, hfront, hinner, hfields, hmethods, h⟩

theorem IsNew.blank (h : b.IsNew) : b.attributes = #[] ∧ b.fields = #[] ∧ b.methods = #[] := by
  obtain ⟨compute, hierarchy, rfl | ⟨data, copied, -, hcopy⟩⟩ := h
  · exact ⟨rfl, rfl, rfl⟩
  · obtain ⟨pool, -, hcopy⟩ := Step.except_bind_ok.1 hcopy
    cases hcopy
    exact ⟨rfl, rfl, rfl⟩

namespace ContentRun

variable {content : ClassContent} {opened entered declared : ClassBuilder}
  (h : ContentRun content b opened entered declared b')

include h

theorem leaves : b.Leaves content.attributes entered := by
  have hparts : ∀ e ∈ content.front ++ content.innerClasses.map ClassContent.innerEvent, e.IsPart :=
    List.forall_mem_append.2 ⟨content.isPart_front, ClassContent.isPart_innerEvent _⟩
  have hleaves := leaves_feedAll hparts (feedAll_append.2 ⟨opened, h.front, h.inner⟩)
  have hnone : (content.innerClasses.map ClassContent.innerEvent).filterMap ClassEvent.raw? = [] :=
    by
    simp [ClassContent.innerEvent, ClassEvent.raw?]
  rwa [List.filterMap_append, content.raw_front, hnone, List.append_nil] at hleaves

/-- A twin goes the same way up to the fields. Of inner classes it gets the first entries only. -/
theorem enters_again (hnew : b.IsNew) (hi : image'.Holds final) (hfinal : entered.pool.Grows final)
    {c : ClassBuilder} (hc : b.Twin final c) : ∃ mid c',
    feedAll content.front c = .ok () mid ∧
      feedAll ((firstEntries content.innerClasses).map ClassContent.innerEvent) mid = .ok () c' ∧
      entered.Twin final c' := by
  obtain ⟨-, hrecorded⟩ := recorded_feedAll h.front
  obtain ⟨hext, hagain⟩ := mimicked_feedAll content.isPart_front _ _ _ h.front
  have hentered := (recorded_feedAll h.inner).1.grows
  have hopened := hrecorded image' [] (hi.of_grows (hentered.trans hfinal)) (hnew.recorded image').1
  have hnone : (ClassParts.of content.front).innerClasses = [] := by
    simp [ClassParts.of, ClassContent.front, ClassEvent.innerClass?, ClassContent.enclosingEvent,
      List.filterMap_cons, List.filterMap_append, List.filterMap_map, Function.comp_def,
      firstEntries]
  obtain ⟨rest, hrest, hinner⟩ := innerClasses_again (hi.of_grows hfinal) hopened h.inner
  rw [List.nil_append, hnone, List.nil_append] at hrest
  obtain rfl : firstEntries content.innerClasses = rest := hrest
  obtain ⟨mid, hmid, htwin⟩ := hagain final c (hentered.trans hfinal) hc
  obtain ⟨c', hc', htwin⟩ :=
    (mimicked_feedAll (ClassContent.isPart_innerEvent _) _ _ _ hinner).2 final mid hfinal htwin
  exact ⟨mid, c', hmid, hc', htwin⟩

end ContentRun

/-- **Content is found as it was told, and what is told of it then does the same again.** -/
theorem content_again {content : ClassContent} {bytes : Bytes} {last : ClassBuilder}
    (hnew : b.IsNew) (hproper : image.Proper content)
    (hversion : content.header.version.isSupported = true) (hplainly : b.compute = ⟨false, false⟩)
    (hfed : feedAll content.events b = .ok u b') (hwritten : toBytes b' = .ok bytes last) :
    ∃ image' content', ClassImage.parse bytes = .ok image' ∧
      image'.events {} = ⟨ClassContent.events content', none⟩ ∧ image'.copyPool = .ok last.pool ∧
      ∀ c, b.Twin last.pool c → ∃ c', feedAll (ClassContent.events content') c = .ok () c' ∧
        toBytes c' = .ok bytes last := by
  obtain ⟨hnoAttributes, hnoFields, hnoMethods⟩ := hnew.blank
  obtain ⟨opened, entered, declared, hrun⟩ := contentRun_of_feedAll hfed
  have hleaves := hrun.leaves
  obtain ⟨hdeclared, hextFields, fields, hfields, hfieldsAgain⟩ :=
    fields_again hproper.fields hrun.fields
  obtain ⟨hb', hextMethods, methods, stages, hmethods, hmethodsAgain⟩ :=
    methods_again hproper.methods (by rw [hdeclared]; exact hleaves.compute hplainly) hrun.methods
  have hattributes : b'.attributes.toList = content.attributes := by
    rw [hb', hdeclared]
    exact hleaves.attributes.trans (by rw [hnoAttributes]; rfl)
  have hnames : ∀ a ∈ b'.attributes.toList, a.name ≠ "BootstrapMethods" := by
    rw [hattributes]
    intro a ha hname
    have hfalse := hproper.names a ha
    rw [hname] at hfalse
    revert hfalse
    decide
  have hsupported : ∀ h, .header h ∈ content.events → h.version.isSupported = true := by
    intro h hh
    obtain rfl : h = content.header := by
      simpa [ClassContent.events, ClassContent.enclosingEvent, ClassContent.innerEvent] using hh
    exact hversion
  obtain ⟨image', header, h, own, tail, visible, invisible, hparse, hw, howned, hlisted, hlast,
    hcopied, hheader, hh, hrecords, hrecorded⟩ := found_again hnew hsupported hnames hfed hwritten
  rw [content.parts_of_events] at hh
  obtain rfl := Option.some.inj hh
  have hgrown := (pool_toBytes hwritten).1.grows
  have hlastFields : last.fields.toList = fields := by
    rw [hlast, hb', hfields, hleaves.fields, hnoFields]
    rfl
  have hlastMethods : last.methods.toList = methods := by
    rw [hlast, hmethods, hdeclared, hleaves.methods, hnoMethods]
    rfl
  -- The fields and methods that are read where they were stored.
  obtain ⟨hfindFields, hrepeatFields⟩ := hfieldsAgain last.pool (hextMethods.grows.trans hgrown)
  have hreadFields := hw.fields_read (hlastFields ▸ hfindFields image' hw.holds)
  have hclass : ∀ stored, declared.header = some stored → ∃ name, image'.className = .ok name ∧
      ClassName.parse name = .ok stored.name := by
    intro stored hstored
    have hsame : last.header = declared.header := by rw [hlast, hb']
    obtain rfl := Option.some.inj (hheader.symm.trans (hsame.trans hstored))
    obtain ⟨-, -, hname, -⟩ := hw.header_read hrecords hproper.headerFlags
    exact ⟨_, hname, hrecords.parsed⟩
  obtain ⟨hfindMethods, hretold⟩ := hmethodsAgain last.pool image' hgrown hw.holds hclass
  obtain ⟨items, hreadMethods, hitems⟩ := hw.methods_read (hlastMethods ▸ hfindMethods)
  obtain ⟨told, htold, hrepeatMethods⟩ := hretold items hitems
  obtain ⟨spans, attributes, hreads⟩ := readsAs_of_stores hw hheader
    (hrecorded.stores_content told hproper hheader hrecords (by rw [hlast, hattributes]))
    howned hlisted hreadFields ⟨items, hreadMethods, htold⟩ rfl rfl
  refine ⟨image', _, hparse, hreads.events_eq, hcopied, fun c hc => ?_⟩
  -- What is told of them leads the twin to the same class.
  obtain ⟨mid, c₁, hfront, hinner, htwin⟩ := hrun.enters_again hnew hw.holds
    ((hextFields.trans hextMethods).grows.trans hgrown) hc
  obtain ⟨c₂, hc₂, htwin⟩ := hrepeatFields c₁ htwin
  obtain ⟨c', hc', htwin⟩ := hrepeatMethods c₂ htwin
  have hpart : ∀ e ∈ [ClassEvent.finish], e.IsPart := List.forall_mem_singleton.2 trivial
  obtain ⟨c'', hfinish, htwin⟩ :=
    (mimicked_feedAll hpart _ _ _ hrun.finish).2 last.pool c' hgrown htwin
  refine ⟨c'', ?_, ?_⟩
  · rw [ClassContent.events_eq_front]
    exact feedAll_append.2 ⟨mid, hfront, feedAll_append.2 ⟨c₁, hinner,
      feedAll_append.2 ⟨c₂, hc₂, feedAll_append.2 ⟨c', hc', hfinish⟩⟩⟩⟩
  · rcases htwin.pool with hpool | ⟨hpool, -⟩
    · rw [htwin.same, hpool]
      exact hwritten
    · rw [htwin.same, hpool, ← hlast]
      exact toBytes_grown hwritten

end ClassBuilder

end JvmClass
