import JvmClass.Proofs.Reencoding.BodyAgain
import JvmClass.Proofs.Reencoding.Contents

/-!
# Fields and methods are told as they were stored

A builder and its twin have the same parts, and the pool of the twin mirrors that of the other. A
field or method that is told to a builder is found where it was written; what is told of it then
does to a twin what the events before did to the builder.
-/

namespace JvmClass

open ConstantPool (Mirrors)
open Scan (Finds)
open Tell (Tells)

namespace ClassBuilder

/-- The twin is the builder, but for a pool that mirrors the builder's. -/
structure Twin (final : ConstantPool) (b c : ClassBuilder) : Prop where
  same : c = { b with pool := c.pool }
  pool : Mirrors final b.pool c.pool

end ClassBuilder

namespace FieldBuilder

open ClassBuilder (feedField)

/-- A field goes the same way again. -/
theorem run_again {d : FieldDeclaration} {copiedPool : Bool} {front : List FieldEvent}
    {p p' q final : ConstantPool} {f : FieldBuilder} {u : Unit}
    {found : PoolIndex × PoolIndex × Option PoolIndex × Option PoolIndex}
    (hfound : constants d p = .ok found q) (hfront : ∀ e ∈ front, Inside e)
    (hrun : feedField (front ++ [.finish]) (ofConstants d copiedPool found q) = .ok u f)
    (hfinal : f.pool.Grows final) (hmirrors : Mirrors final p p') :
    ∃ q' g, constants d p' = .ok found q' ∧
      feedField (front ++ [.finish]) (ofConstants d copiedPool found q') = .ok () g ∧
      g.finished = f.finished ∧ Mirrors final f.pool g.pool := by
  obtain ⟨mid, hmid, hfinish⟩ := feedField_append.1 hrun
  obtain ⟨haccepts, rfl⟩ := (run_inside hfront).1 hmid
  obtain ⟨_, last, hlast, hend⟩ := Step.bind_ok.1 hfinish
  obtain ⟨-, rfl⟩ := Step.pure_ok.1 hend
  obtain ⟨attributes, pool, hattributes, hcount, rfl⟩ := finish_ok.1 hlast
  have hown := (gives_ownAttributes { ofConstants d copiedPool found q with
    annotations := #[] ++ (front.filterMap annotation?).toArray
    attributes := #[] ++ (front.filterMap raw?).toArray }).stable
  obtain ⟨q', hfound', hmirrors⟩ := (gives_constants d).stable.again hfound
    ((hown _ _ _ hattributes).1.grows.trans hfinal) hmirrors
  obtain ⟨pool', hattributes', hmirrors⟩ := hown.again hattributes hfinal hmirrors
  refine ⟨q', _, hfound', feedField_append.2 ⟨_, (run_inside hfront).2 ⟨haccepts, rfl⟩,
    Step.bind_ok.2 ⟨(), _, finish_ok.2 ⟨attributes, pool', hattributes', hcount, rfl⟩, rfl⟩⟩,
    rfl, hmirrors⟩

end FieldBuilder

namespace ClassBuilder

variable {image : ClassImage} {b b' : ClassBuilder} {u : Unit}

/-- **A field is found as it was told, and does the same again.** -/
theorem field_again {d : FieldDeclaration} {attributes : MemberAttributes}
    {events : List FieldEvent} (hflags : AccessFlags.decode d.flags.bits = d.flags)
    (hnames : ∀ span ∈ attributes.others.toList, Member.isFieldAttribute span.name = false)
    (htold : Tells (image.tellField attributes) events)
    (hfed : feed (.field d events) b = .ok u b') :
    ∃ m, b' = { b with pool := b'.pool, fields := b.fields.push m } ∧ b.pool.Extended b'.pool ∧
      ∀ final, b'.pool.Grows final →
        (∀ image' : ClassImage, image'.Holds final → m.Fits →
          Finds image'.data image'.readField m.encode fun item => item.1 = d ∧
            Tells (image'.tellField item.2) events) ∧
        ∀ c, b.Twin final c → ∃ c', feed (.field d events) c = .ok () c' ∧ b'.Twin final c' := by
  obtain ⟨all, hall⟩ := ClassImage.tellField_ok ⟨_, _, htold #[]⟩
  let raws := attributes.others.toList.map image.raw
  let front : List FieldEvent :=
    all.map (fun a => .annotated a.1 a.2) ++ raws.map .attribute
  have htells : Tells (image.tellField attributes) (front ++ [.finish]) :=
    ClassImage.tells_field hall
  obtain rfl := htold.unique htells
  have hannotations : front.filterMap FieldBuilder.annotation? = all := by
    simp [front, List.filterMap_append, List.filterMap_map, Function.comp_def,
      FieldBuilder.annotation?]
  have hraws : front.filterMap FieldBuilder.raw? = raws := by
    simp [front, List.filterMap_append, List.filterMap_map, Function.comp_def, FieldBuilder.raw?]
  have hinside : ∀ e ∈ front, FieldBuilder.Inside e := by
    intro e he
    rcases List.mem_append.1 he with he | he
    all_goals
      obtain ⟨_, -, rfl⟩ := List.mem_map.1 he
      trivial
  obtain ⟨header, found, pool, f, hheader, hask, hrun, rfl⟩ := feed_field.1 hfed
  obtain ⟨m, hm, hext, hfield⟩ := FieldBuilder.isField_of_run hask hinside hrun
  rw [hannotations, hraws] at hfield
  refine ⟨m, by rw [hm]; rfl, hext, fun final hfinal => ⟨fun image' hi hfits => ?_, fun c hc => ?_⟩⟩
  · have hrawNames : ∀ a ∈ raws, Member.isFieldAttribute a.name = false := by
      intro a ha
      obtain ⟨span, hspan, rfl⟩ := List.mem_map.1 ha
      exact hnames span hspan
    refine ((hfield image' (hi.of_grows hfinal)).finds hfits hflags hrawNames).mono ?_
    rintro item ⟨hd, hread, hothers⟩
    rw [ClassImage.toldAnnotations_eq hall] at hread
    have htells' := ClassImage.tells_field hread
    rw [hothers] at htells'
    exact ⟨hd, htells'⟩
  · obtain ⟨hsame, hpool⟩ := hc
    obtain ⟨q', g, hask', hrun', hfinished, hmirrors⟩ :=
      FieldBuilder.run_again hask hinside hrun hfinal hpool
    refine ⟨{ b with pool := g.pool, fields := b.fields ++ g.finished }, ?_, ?_, hmirrors⟩
    · rw [hsame]
      exact feed_field.2 ⟨header, found, q', g, hheader, hask', hrun', rfl⟩
    · rw [hfinished]

end ClassBuilder

namespace ClassImage

variable {image : ClassImage} {d : MethodDeclaration} {events : List MethodEvent}

/-- What is told of a body stays inside the method and adds no annotation. -/
theorem inside_of_tellBody {named : NamedBody} (h : Tells (image.tellBody named) events) :
    ∀ e ∈ events, MethodBuilder.Inside e ∧ MethodBuilder.annotation? e = none := by
  have hinside {e : MethodEvent} (he : e.isOutside = false) :
      MethodBuilder.Inside e ∧ MethodBuilder.annotation? e = none := by
    cases e <;> first | exact ⟨trivial, rfl⟩ | cases he
  obtain ⟨told, htellings, htells⟩ := tellBody_ok ⟨_, _, h #[]⟩
  obtain rfl := h.unique htells
  intro e he
  refine hinside ?_
  simp only [List.mem_append, List.mem_map] at he
  obtain he | ⟨⟨p, e⟩, he, rfl⟩ | he := he
  · obtain rfl | rfl | ⟨_, -, rfl⟩ := mem_eventsAhead he <;> rfl
  · rcases htellings.mem he with he | ⟨i, -, he⟩
    · obtain ⟨_, -, rfl | ⟨_, -, rfl⟩ | ⟨_, -, rfl⟩⟩ := mem_eventsBefore he <;> rfl
    · cases houtside : e.isOutside with
      | false => rfl
      | true =>
        have hinstruction := (MethodEvent.beside houtside).instruction
        rw [(instructionEvent_ok he).1] at hinstruction
        cases hinstruction
  · obtain ⟨_, rfl⟩ | he := mem_eventsBehind he
    · rfl
    · obtain ⟨_, -, rfl⟩ | ⟨_, rfl⟩ | rfl := mem_eventsAfter he <;> rfl

theorem TellsCode.inside {code : Option AttributeSpan} (h : image.TellsCode d code events) :
    ∀ e ∈ events, MethodBuilder.Inside e ∧ MethodBuilder.annotation? e = .none := by
  cases h with
  | none => exact List.forall_mem_nil _
  | some _ htold => exact inside_of_tellBody htold

/-- **What the code of a method stores is told again, and stored again.** Without code there is
nothing to tell. -/
theorem code_again {image' : ClassImage} {code code' : Option AttributeSpan}
    {b b' : MethodBuilder} {final : ConstantPool} {u : Unit} (hcode : image.TellsCode d code events)
    (hblank : b.Blank) (hplainly : b.setting.compute = ⟨false, false⟩)
    (hrun : ClassBuilder.feedMethod events b = .ok u b') (hfinal : b'.pool.Grows final)
    (hi : image'.Holds final) (hlocals : image'.entryLocals d = .ok b.entryFrame.layout.locals)
    (hfits : ∀ a, b'.body = some a → a.2.Fits)
    (hspan : Option.Rel (fun a span => span.Holds image'.data a) b'.body code') :
    ∃ events', image'.TellsCode d code' events' ∧ ∀ pool, Mirrors final b.pool pool →
      ∃ c, ClassBuilder.feedMethod events' { b with pool } = .ok () c ∧ c.rest = b'.rest ∧
        Mirrors final b'.pool c.pool := by
  cases hcode with
  | none =>
    obtain ⟨-, rfl⟩ := Step.pure_ok.1 hrun
    rw [hblank.bare.body] at hspan
    cases hspan
    exact ⟨[], .none, fun pool hmirrors => ⟨_, rfl, rfl, hmirrors⟩⟩
  | @some span named _ hread htold =>
    obtain ⟨a, ha, hagain⟩ := body_again hread htold hblank hplainly hrun hfinal hi hlocals
    rw [ha] at hspan
    cases hspan with | some hspan =>
    obtain ⟨named', events', hread', htold', hagain⟩ := hagain _ (hfits a ha) hspan
    exact ⟨events', .some hread' htold', hagain⟩

end ClassImage

namespace MethodBuilder

open ClassBuilder (feedMethod feedMethod_append)

variable {b b' c : MethodBuilder} {u : Unit} {final : ConstantPool}

theorem feed_annotated (all : List Annotated) (b : MethodBuilder) :
    feedMethod (all.map fun (a, visible) => .annotated a visible) b =
      .ok () { b with annotations := b.annotations ++ all.toArray } := by
  induction all generalizing b with
  | nil => simp [feedMethod, pure, EStateM.pure]
  | cons a rest ih =>
    refine Step.bind_ok.2 ⟨(), _, rfl, (ih _).trans ?_⟩
    simp

/-- Attributes of the method are taken up if the pool is copied. -/
theorem feed_attributes {attributes : List RawAttribute} :
    feedMethod (attributes.map .attribute) b = .ok u b' ↔
      (∀ a ∈ attributes, a.check b.setting.copiedPool = .ok ()) ∧
        b' = { b with attributes := b.attributes ++ attributes.toArray } := by
  induction attributes generalizing b with
  | nil =>
    refine Step.pure_ok.trans ⟨?_, ?_⟩
    · rintro ⟨-, rfl⟩
      exact ⟨nofun, by simp⟩
    · rintro ⟨-, rfl⟩
      exact ⟨rfl, by simp⟩
  | cons a rest ih =>
    have hfirst {mid : MethodBuilder} {v : Unit} : feed (.attribute a) b = .ok v mid ↔
        a.check b.setting.copiedPool = .ok () ∧
          mid = { b with attributes := b.attributes.push a } := by
      simp only [feed, Step.bind_ok, Step.get_ok, Step.of_ok, Step.modify_ok]
      constructor
      · rintro ⟨_, _, ⟨rfl, rfl⟩, _, _, ⟨ha, rfl⟩, rfl⟩
        exact ⟨ha, rfl⟩
      · rintro ⟨ha, rfl⟩
        exact ⟨_, _, ⟨rfl, rfl⟩, _, _, ⟨ha, rfl⟩, rfl⟩
    refine Step.bind_ok.trans ⟨?_, ?_⟩
    · rintro ⟨_, _, hevent, hrest⟩
      obtain ⟨ha, rfl⟩ := hfirst.1 hevent
      obtain ⟨hall, rfl⟩ := ih.1 hrest
      exact ⟨List.forall_mem_cons.2 ⟨ha, hall⟩, by simp⟩
    · rintro ⟨hall, rfl⟩
      obtain ⟨ha, hall⟩ := List.forall_mem_cons.1 hall
      exact ⟨(), _, hfirst.2 ⟨ha, rfl⟩, ih.2 ⟨hall, by simp⟩⟩

theorem start_ok {compute : Compute} {copiedPool : Bool} {hierarchy : Hierarchy}
    {thisClass : ClassName} {d : MethodDeclaration} {p q : ConstantPool} {setting : MethodSetting}
    (h : start compute copiedPool hierarchy thisClass d p = .ok setting q) :
    setting.compute = compute ∧ setting.thisClass = thisClass ∧ setting.flags = d.flags ∧
      setting.isConstructor = d.isConstructor ∧
      parseDescriptor MethodDescriptor d.descriptor = .ok setting.descriptor := by
  simp only [start, Step.bind_ok, Step.of_ok, Step.pure_ok] at h
  obtain ⟨_, _, -, _, _, -, descriptor, _, ⟨hdescriptor, rfl⟩, rfl, rfl⟩ := h
  exact ⟨rfl, rfl, rfl, rfl, hdescriptor⟩

/-- The class file that a method is written to tells its locals on entry. -/
theorem entryLocals_of_start {image : ClassImage} {compute : Compute} {copiedPool : Bool}
    {hierarchy : Hierarchy} {thisClass : ClassName} {d : MethodDeclaration} {p q : ConstantPool}
    {setting : MethodSetting} {name : String} (hname : image.className = .ok name)
    (hparse : ClassName.parse name = .ok thisClass)
    (h : start compute copiedPool hierarchy thisClass d p = .ok setting q) :
    image.entryLocals d = .ok (ofSetting setting q).entryFrame.layout.locals := by
  obtain ⟨-, rfl, hflags, hconstructor, hdescriptor⟩ := start_ok h
  refine Step.except_bind_ok.2 ⟨name, hname, Step.except_bind_ok.2 ⟨_, hparse,
    Step.except_bind_ok.2 ⟨_, hdescriptor, ?_⟩⟩⟩
  rw [← hflags, ← hconstructor]
  rfl

/-- A method ends in the same way if nothing of it differs but the pool and what its body needed. -/
theorem finish_again (h : finish b = .ok u b') (hrest : c.rest = b.rest)
    (hfinal : b'.pool.Grows final) (hmirrors : Mirrors final b.pool c.pool) :
    ∃ c', finish c = .ok () c' ∧ c'.finished = b'.finished ∧ Mirrors final b'.pool c'.pool := by
  obtain ⟨attributes, pool, hattributes, hcount, rfl⟩ := finish_ok.1 h
  simp only [rest, data, mk.injEq] at hrest
  have hown : ownAttributes c = ownAttributes b := by
    simp only [ownAttributes, hrest]
  obtain ⟨pool', hattributes', hmirrors⟩ :=
    (gives_ownAttributes b).stable.again hattributes hfinal hmirrors
  refine ⟨_, finish_ok.2 ⟨attributes, pool', hown ▸ hattributes', ?_, rfl⟩, ?_, hmirrors⟩
  · simpa only [hrest] using hcount
  · simp only [hrest]

end MethodBuilder

namespace ClassBuilder

open MethodBuilder (feed_annotated feed_attributes start_ok finish_again isMethod_of_finish)

variable {image : ClassImage} {b b' : ClassBuilder} {u : Unit}

/-- **A method is found as it was told, and what is told of it then does the same again.** -/
theorem method_again {d : MethodDeclaration} {attributes : ClassImage.MethodAttributes}
    {events : List MethodEvent} (hflags : AccessFlags.decode d.flags.bits = d.flags)
    (hnames : ∀ span ∈ attributes.common.others.toList,
      Member.isMethodAttribute span.name = false) (hplainly : b.compute = ⟨false, false⟩)
    (htold : Tells (image.tellMethod {} d attributes) events)
    (hfed : feed (.method d events) b = .ok u b') :
    ∃ m, b' = { b with pool := b'.pool, methods := b.methods.push m } ∧ b.pool.Extended b'.pool ∧
      ∀ final (image' : ClassImage), b'.pool.Grows final → image'.Holds final →
        (∀ header, b.header = some header → ∃ name, image'.className = .ok name ∧
          ClassName.parse name = .ok header.name) → m.Fits →
        Finds image'.data image'.readMethod m.encode fun item => item.1 = d ∧
          ∃ events', Tells (image'.tellMethod {} d item.2) events' ∧ ∀ c, b.Twin final c →
            ∃ c', feed (.method d events') c = .ok () c' ∧ b'.Twin final c' := by
  obtain ⟨all, body, hall, hcode, htells⟩ := ClassImage.told_of_tellMethod ⟨_, _, htold #[]⟩
  obtain rfl := htold.unique htells
  obtain ⟨header, setting, pool, last, hheader, hstart, hrun, rfl⟩ := feed_method.1 hfed
  obtain ⟨opened, hfront, hrun⟩ := feedMethod_append.1 hrun
  obtain ⟨mid, hannotated, hattributes⟩ := feedMethod_append.1 hfront
  rw [feed_annotated] at hannotated
  cases hannotated
  obtain ⟨haccepts, rfl⟩ := feed_attributes.1 hattributes
  obtain ⟨closed, hbody, hrun⟩ := feedMethod_append.1 hrun
  obtain ⟨_, _, hfinish, hend⟩ := Step.bind_ok.1 hrun
  obtain ⟨-, rfl⟩ := Step.pure_ok.1 hend
  have hinside := hcode.inside
  obtain ⟨hannotations, hkeeps⟩ := MethodBuilder.run_inside (fun e he => (hinside e he).1) hbody
  rw [List.filterMap_eq_nil_iff.2 fun e he => (hinside e he).2, List.append_nil] at hannotations
  have hsetting : closed.setting = setting := hkeeps.setting
  have hfinished : closed.finished = #[] := hkeeps.finished
  have hattributes : closed.attributes = _ := hkeeps.attributes
  obtain ⟨m, hm, hext, hmethod⟩ :=
    isMethod_of_finish (d := d) hfinish (hkeeps.body fun a ha => nomatch ha)
  rw [hfinished] at hm
  have hgives := MethodBuilder.gives_start b.compute b.copiedPool b.hierarchy header.name d
  have hstarted := (hgives.stable _ _ _ hstart).1
  refine ⟨m, by rw [hm]; rfl, (hstarted.trans hkeeps.pool).trans hext,
    fun final image' hfinal hi hclass hfits => ?_⟩
  have hclosed := hext.grows.trans hfinal
  have hopened := hkeeps.pool.grows.trans hclosed
  obtain ⟨hname, hdescriptor, hdflags, hsig, hexceptions⟩ :=
    hgives.answer hstart (hi.of_grows hopened)
  have hheld := hmethod image' (hi.of_grows hfinal) ⟨by rw [hsetting, hname],
    by rw [hsetting, hdescriptor], by rw [hsetting, hdflags], by rw [hsetting, hsig],
    by rw [hsetting, hexceptions]⟩
  rw [hannotations, hattributes] at hheld
  simp only [Array.empty_append, MethodBuilder.ofSetting] at hheld
  obtain ⟨name, hclassName, hparse⟩ := hclass header hheader
  have hlocals := MethodBuilder.entryLocals_of_start hclassName hparse hstart
  have hrawNames : ∀ a ∈ attributes.common.others.toList.map image.raw,
      Member.isMethodAttribute a.name = false := List.forall_mem_map.2 hnames
  refine (hheld.finds hfits hflags hrawNames).mono ?_
  rintro item ⟨hd, hspan, hread, hothers⟩
  rw [ClassImage.toldAnnotations_eq hall] at hread
  obtain ⟨body', hcode', hagain⟩ := ClassImage.code_again hcode (by exact rfl)
    ((start_ok hstart).1.trans hplainly) hbody hclosed hi hlocals
    (fun a ha => hheld.fits_body hfits ha) hspan
  have htold' := ClassImage.tells_method hread hcode'
  rw [hothers] at htold'
  refine ⟨hd, _, htold', fun c hc => ?_⟩
  obtain ⟨pool', hstart', hmirrors⟩ := hgives.stable.again hstart hopened hc.pool
  obtain ⟨c', hbody', hrest, hmirrors⟩ := hagain pool' hmirrors
  obtain ⟨g, hfinish', hfinished', hmirrors⟩ := finish_again hfinish hrest hfinal hmirrors
  refine ⟨{ b with pool := g.pool, methods := b.methods ++ g.finished }, ?_, ?_, hmirrors⟩
  · rw [hc.same]
    refine feed_method.2 ⟨header, setting, pool', g, hheader, hstart', ?_, rfl⟩
    exact feedMethod_append.2 ⟨_, feedMethod_append.2 ⟨_, feed_annotated _ _,
      feed_attributes.2 ⟨haccepts, rfl⟩⟩, feedMethod_append.2 ⟨c', hbody',
        Step.bind_ok.2 ⟨(), _, hfinish', rfl⟩⟩⟩
  · rw [hfinished']

end ClassBuilder

end JvmClass
