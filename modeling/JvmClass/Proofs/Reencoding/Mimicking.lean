import JvmClass.Proofs.Reencoding.MembersAgain

/-!
# Events that do the same again

What is told of a class before its fields and methods comes down to requests to the pool and to
changes that do not look at the pool. A twin, whose pool answers as that of the builder did, takes
these events up in the same way (`ClassBuilder.mimicked_feedAll`). Of inner classes only the first
entry for a class has been told again, and the others did nothing
(`ClassBuilder.innerClasses_again`).
-/

namespace JvmClass

open ConstantPool (Stable)

namespace ClassBuilder

variable {α β : Type} {b b' : ClassBuilder} {u : Unit}

theorem feedAll_append {front rest : List ClassEvent} :
    feedAll (front ++ rest) b = .ok u b' ↔
      ∃ mid, feedAll front b = .ok () mid ∧ feedAll rest mid = .ok u b' := by
  induction front generalizing b with
  | nil =>
    refine ⟨fun h => ⟨b, rfl, h⟩, ?_⟩
    rintro ⟨mid, hnone, hrest⟩
    obtain ⟨-, rfl⟩ := Step.pure_ok.1 hnone
    exact hrest
  | cons event front ih =>
    constructor
    · intro h
      obtain ⟨_, next, hfirst, h⟩ := Step.bind_ok.1 h
      obtain ⟨mid, hfront, hrest⟩ := ih.1 h
      exact ⟨mid, Step.bind_ok.2 ⟨_, next, hfirst, hfront⟩, hrest⟩
    · rintro ⟨mid, hfront, hrest⟩
      obtain ⟨_, next, hfirst, hfront⟩ := Step.bind_ok.1 hfront
      exact Step.bind_ok.2 ⟨_, next, hfirst, ih.2 ⟨mid, hfront, hrest⟩⟩

section Mimicking

/-- A step adds to the pool, and a twin does the same. -/
def Mimicked (step : Build α) : Prop :=
  ∀ b a b', step b = .ok a b' → b.pool.Extended b'.pool ∧ ∀ final c, b'.pool.Grows final →
    b.Twin final c → ∃ c', step c = .ok a c' ∧ b'.Twin final c'

theorem mimicked_pure (a : α) : Mimicked (pure a) := by
  intro b _ _ h
  obtain ⟨rfl, rfl⟩ := Step.pure_ok.1 h
  exact ⟨.refl, fun final c _ hc => ⟨c, rfl, hc⟩⟩

theorem mimicked_throw (e : ClassError) : Mimicked (throw e : Build α) :=
  fun _ _ _ h => (Step.throw_ok.1 h).elim

theorem mimicked_of (x : Except ClassError α) : Mimicked (Step.of x) := by
  intro b _ _ h
  obtain ⟨hx, rfl⟩ := Step.of_ok.1 h
  exact ⟨.refl, fun final c _ hc => ⟨c, Step.of_ok.2 ⟨hx, rfl⟩, hc⟩⟩

theorem mimicked_bind {step : Build α} {rest : α → Build β} (h : Mimicked step)
    (hrest : ∀ a, Mimicked (rest a)) : Mimicked (step >>= rest) := by
  intro b _ b' hrun
  obtain ⟨a, mid, hfirst, hlast⟩ := Step.bind_ok.1 hrun
  obtain ⟨hext, hagain⟩ := h _ _ _ hfirst
  obtain ⟨hext', hagain'⟩ := hrest a _ _ _ hlast
  refine ⟨hext.trans hext', fun final c hfinal hc => ?_⟩
  obtain ⟨next, hnext, htwin⟩ := hagain final c (hext'.grows.trans hfinal) hc
  obtain ⟨c', hc', htwin⟩ := hagain' final next hfinal htwin
  exact ⟨c', Step.bind_ok.2 ⟨a, next, hnext, hc'⟩, htwin⟩

theorem mimicked_ask {request : ConstantPool.Request α} (h : Stable request) :
    Mimicked (ask request) := by
  intro b a b' hask
  obtain ⟨pool, hanswer, rfl⟩ := ask_ok.1 hask
  refine ⟨(h _ _ _ hanswer).1, fun final c hfinal hc => ?_⟩
  obtain ⟨pool', hagain, hmirrors⟩ := h.again hanswer hfinal hc.pool
  refine ⟨{ c with pool := pool' }, ask_ok.2 ⟨pool', hagain, rfl⟩, ?_, hmirrors⟩
  rw [hc.same]

theorem mimicked_modify {change : ClassBuilder → ClassBuilder}
    (h : ∀ b pool, change { b with pool } = { change b with pool }) :
    Mimicked (modify change : Build PUnit) := by
  intro b _ b' hrun
  obtain rfl := Step.modify_ok.1 hrun
  have hpool : (change b).pool = b.pool := (congrArg ClassBuilder.pool (h b b.pool) :)
  refine ⟨hpool ▸ .refl, fun final c _ hc => ⟨change c, rfl, ?_⟩⟩
  have hchange : change c = { change b with pool := c.pool } := by
    rw [hc.same, h]
  refine ⟨?_, ?_⟩
  · rw [hchange]
  · rw [hchange, hpool]
    exact hc.pool

/-- What is looked up does not depend on the pool. -/
theorem mimicked_get {rest : ClassBuilder → Build α} (hsame : ∀ b pool, rest { b with pool } =
    rest b) (h : ∀ b, Mimicked (rest b)) : Mimicked (get >>= rest) := by
  intro b a b' hrun
  obtain ⟨hext, hagain⟩ := h b b a b' hrun
  refine ⟨hext, fun final c hfinal hc => ?_⟩
  obtain ⟨c', hc', htwin⟩ := hagain final c hfinal hc
  refine ⟨c', ?_, htwin⟩
  have hrest : rest c = rest b := by rw [hc.same, hsame]
  exact (congrFun hrest c).trans hc'

theorem mimicked_getHeader : Mimicked getHeader := by
  refine mimicked_get (fun _ _ => rfl) fun b => ?_
  cases b.header with
  | none => exact mimicked_throw _
  | some header => exact mimicked_pure header

end Mimicking

theorem mimicked_beginClass (h : ClassHeader) : Mimicked (beginClass h) := by
  have hstore : Mimicked (storeHeader h) :=
    mimicked_bind (mimicked_ask (ConstantPool.stable_cls _)) fun _ =>
    mimicked_bind (mimicked_ask (ConstantPool.stable_clsOrZero _)) fun _ =>
    mimicked_bind (mimicked_ask (ConstantPool.stable_classes _)) fun _ =>
    mimicked_bind (mimicked_of _) fun _ =>
    mimicked_bind (mimicked_ask (ConstantPool.gives_utf8? _).stable) fun _ =>
    mimicked_bind (mimicked_of _) fun _ => mimicked_modify fun _ _ => rfl
  unfold beginClass
  split
  · exact mimicked_bind (mimicked_modify fun _ _ => rfl) fun _ => hstore
  · exact hstore

theorem mimicked_encloseIn (owner : String) (name descriptor : Option String) :
    Mimicked (encloseIn owner name descriptor) := by
  refine mimicked_bind (mimicked_ask (ConstantPool.stable_cls _)) fun cls => ?_
  have hput (method : Option PoolIndex) : Mimicked (modify fun b =>
      { b with enclosingMethod := some (cls, method) } : Build Unit) := mimicked_modify fun _ _ =>
      rfl
  cases name <;> cases descriptor
  · exact mimicked_bind (mimicked_pure none) hput
  · exact mimicked_bind (mimicked_throw _) hput
  · exact mimicked_bind (mimicked_throw _) hput
  · exact mimicked_bind (mimicked_bind (mimicked_ask (ConstantPool.stable_nameAndType _ _)) fun _ =>
      mimicked_pure _) hput

theorem mimicked_addNestMember (name : String) : Mimicked (addNestMember name) :=
  mimicked_bind (mimicked_ask (ConstantPool.stable_cls _)) fun _ =>
  mimicked_bind (mimicked_modify fun _ _ => rfl) fun _ =>
  mimicked_get (fun _ _ => rfl) fun _ => mimicked_bind (mimicked_of _) fun _ => mimicked_pure ()

theorem mimicked_addInnerClass (name : String) (outer inner : Option String)
    (flags : AccessFlags .ofInnerClass) : Mimicked (addInnerClass name outer inner flags) := by
  refine mimicked_bind (mimicked_ask (ConstantPool.stable_cls _)) fun cls => ?_
  refine mimicked_get (fun _ _ => rfl) fun b => ?_
  split
  · exact mimicked_bind (mimicked_ask (ConstantPool.stable_clsOrZero _)) fun _ =>
      mimicked_bind (mimicked_ask (ConstantPool.stable_utf8OrZero _)) fun _ =>
      mimicked_bind (mimicked_modify fun _ _ => rfl) fun _ =>
      mimicked_get (fun _ _ => rfl) fun _ => mimicked_bind (mimicked_of _) fun _ =>
      mimicked_pure ()
  · exact mimicked_pure ()

theorem mimicked_endClass : Mimicked endClass :=
  mimicked_bind mimicked_getHeader fun _ => mimicked_get (fun _ _ => rfl) fun _ =>
  mimicked_bind (mimicked_of _) fun _ => mimicked_bind (mimicked_of _) fun _ => mimicked_pure ()

/-- **A twin takes up what is neither a field nor a method in the same way.** -/
theorem mimicked_feed {e : ClassEvent} (h : e.IsPart) : Mimicked (feed e) := by
  cases e with
  | header declared => exact mimicked_beginClass declared
  | sourceFile name =>
    exact mimicked_bind (mimicked_ask (ConstantPool.stable_utf8 _)) fun _ =>
      mimicked_modify fun _ _ => rfl
  | nestHost name =>
    exact mimicked_bind (mimicked_ask (ConstantPool.stable_cls _)) fun _ =>
      mimicked_modify fun _ _ => rfl
  | enclosingMethod owner name descriptor => exact mimicked_encloseIn owner name descriptor
  | annotated a visible => exact mimicked_modify fun _ _ => rfl
  | «attribute» a =>
    exact mimicked_get (fun _ _ => rfl) fun _ =>
      mimicked_bind (mimicked_of _) fun _ => mimicked_modify fun _ _ => rfl
  | nestMember name => exact mimicked_addNestMember name
  | innerClass name outer inner flags => exact mimicked_addInnerClass name outer inner flags
  | field d events => exact h.elim
  | method d events => exact h.elim
  | finish => exact mimicked_endClass

theorem mimicked_feedAll {events : List ClassEvent} (h : ∀ e ∈ events, e.IsPart) :
    Mimicked (feedAll events) := by
  induction events with
  | nil => exact mimicked_pure ()
  | cons e rest ih =>
    obtain ⟨hfirst, hrest⟩ := List.forall_mem_cons.1 h
    exact mimicked_bind (mimicked_feed hfirst) fun _ => ih hrest

theorem leaves_feedAll {events : List ClassEvent} (h : ∀ e ∈ events, e.IsPart)
    (hfed : feedAll events b = .ok u b') : b.Leaves (events.filterMap ClassEvent.raw?) b' := by
  induction events generalizing b with
  | nil =>
    obtain ⟨-, rfl⟩ := Step.pure_ok.1 hfed
    exact ⟨rfl, rfl, (List.append_nil _).symm, id⟩
  | cons e rest ih =>
    obtain ⟨hfirst, hrest⟩ := List.forall_mem_cons.1 h
    obtain ⟨_, mid, hfed, hlater⟩ := Step.bind_ok.1 hfed
    have hmid := leaves_feed hfirst hfed
    have hlast := ih hrest hlater
    refine ⟨hlast.fields.trans hmid.fields, hlast.methods.trans hmid.methods, ?_,
      hlast.compute ∘ hmid.compute⟩
    rw [hlast.attributes, hmid.attributes, List.append_assoc]
    congr 1
    cases hraw : e.raw? with
    | none => simp [hraw]
    | some a => simp [hraw]

section InnerClasses

variable {parts : ClassParts} {image : ClassImage}

/-- A second entry for a class does nothing at all. -/
theorem addInnerClass_again {name : String} {outer inner : Option String}
    {flags : AccessFlags .ofInnerClass} (hfeed : addInnerClass name outer inner flags b = .ok u b')
    (hb : b.Recorded parts image) (hany : parts.innerClasses.any (·.1 == name)) : b' = b := by
  obtain ⟨entry, hentry, hname⟩ := List.any_eq_true.1 hany
  obtain ⟨c, hc, hrecords⟩ := exists_of_forall₂ hb.innerClasses hentry
  obtain rfl : entry.1 = name := by simpa using hname
  have hask : ask (ConstantPool.cls entry.1) b = .ok c.inner b :=
    ask_ok.2 ⟨b.pool, hrecords.asked b.pool (.refl b.pool), rfl⟩
  have hknown : b.innerClasses.any (·.inner == c.inner) = true := by
    rw [← Array.any_toList, List.any_eq_true]
    exact ⟨c, hc, beq_self_eq_true _⟩
  obtain ⟨cls, _, hcls, hfeed⟩ := Step.bind_ok.1 hfeed
  rw [hask] at hcls
  cases hcls
  obtain ⟨_, _, hget, hfeed⟩ := Step.bind_ok.1 hfeed
  obtain ⟨rfl, rfl⟩ := Step.get_ok.1 hget
  rw [hknown] at hfeed
  obtain ⟨-, rfl⟩ := Step.pure_ok.1 hfeed
  rfl

/-- **Of inner classes the first entries do what all of them do.** -/
theorem innerClasses_again {entries : List InnerEntry} (hi : image.Holds b'.pool)
    (hb : b.Recorded parts image)
    (hfed : feedAll (entries.map ClassContent.innerEvent) b = .ok u b') :
    ∃ rest, entries.foldl addEntry parts.innerClasses = parts.innerClasses ++ rest ∧
      feedAll (rest.map ClassContent.innerEvent) b = .ok u b' := by
  induction entries generalizing b parts with
  | nil => exact ⟨[], (List.append_nil _).symm, hfed⟩
  | cons c entries ih =>
    obtain ⟨_, mid, hfirst, hrest⟩ := Step.bind_ok.1 hfed
    have hmid := (records_innerClass hfirst).2 image parts
      (hi.of_grows (recorded_feedAll hrest).1.grows) hb
    obtain ⟨rest, hrest', hagain⟩ := ih hmid hrest
    rw [List.foldl_cons]
    by_cases hany : parts.innerClasses.any (·.1 == c.1)
    · have hsame : addEntry parts.innerClasses c = parts.innerClasses := if_pos hany
      obtain rfl := addInnerClass_again hfirst hb hany
      refine ⟨rest, ?_, hagain⟩
      have hparts : (parts.add (.innerClass c.1 c.2.1 c.2.2.1 c.2.2.2)).innerClasses =
          parts.innerClasses := hsame
      rw [hparts] at hrest'
      rw [hsame, hrest']
    · have hadded : addEntry parts.innerClasses c = parts.innerClasses ++ [c] := if_neg hany
      have hparts : (parts.add (.innerClass c.1 c.2.1 c.2.2.1 c.2.2.2)).innerClasses =
          parts.innerClasses ++ [c] := hadded
      refine ⟨c :: rest, ?_, Step.bind_ok.2 ⟨_, mid, hfirst, hagain⟩⟩
      rw [hparts] at hrest'
      rw [hadded, hrest', List.append_assoc]
      rfl

end InnerClasses

end ClassBuilder

end JvmClass
