import JvmClass.Assembly.Body
import JvmClass.Proofs.Steps

/-!
# The end of a body in stages

The end of a body first settles branch distances, the greatest stack height and the frames
(`MethodBuilder.settleBody`). Then the frames are stored, and then the body is completed
(`MethodBuilder.finishBody_eq`).
-/

namespace JvmClass.MethodBuilder

/-- What is known about a body when its frames are stored: the frame before the first one, and the
frames at their offsets. -/
structure Handover where
  maxStack : UInt16
  /-- The number of locals, if it was given. -/
  maxLocals : Option UInt16
  entry : Layout NamedType
  frames : List (Nat × Layout NamedType)

/-- The frames that were given, for storing. -/
def handOverGiven (maxStack : UInt16) (maxLocals : Option UInt16) : Assemble Handover := do
  let b ← get
  let frames ← Step.of (b.givenFrames.toList.mapM (givenLayout b.graph))
  return ⟨maxStack, maxLocals, b.entryFrame.layout, frames⟩

/-- Computes the frames of a body, for storing. -/
def handOverComputed (entry : Label) : Assemble Handover := do
  let b ← get
  let flow : FlowSetting :=
    { graph := b.graph, blocks := b.blocks, hierarchy := b.setting.hierarchy
      thisClass := b.setting.thisClass }
  let inputs ← Step.of (flow.inputs entry b.entryFrame)
  modify fun b =>
    { b with graph := inputs.frames.fold (fun g block _ => g.markReachable block) b.graph }
  let plan ← placeFrames inputs.frames {} (← get).graph.blocks
  let maxStack := if plan.replaced then max inputs.maxStack 1 else inputs.maxStack
  if 65536 ≤ maxStack then throw (.maxStackOverflow maxStack)
  return ⟨UInt16.ofNat maxStack, none, b.entryFrame.layout,
    plan.frames.reverse.map fun (offset, frame) => (offset, frame.layout)⟩

/-- The maximums of a body and its frames for storing, computed or as given. -/
def handOver (entry : Label) (stack locals : UInt16) : Assemble Handover := do
  let b ← get
  if b.setting.compute.frames then
    onGraph (Handlers.completeTyped b.handlers.toList)
    handOverComputed entry
  else if b.setting.compute.computesMaxs then
    onGraph (Handlers.complete b.handlers.toList)
    let b ← get
    let maxStack := (b.graph.maxStack b.blocks entry).toNat
    if 65536 ≤ maxStack then throw (.maxStackOverflow maxStack)
    handOverGiven (UInt16.ofNat maxStack) none
  else handOverGiven stack (some locals)

/-- Stores the frames that are handed over. -/
def storeFrames (h : Handover) : Assemble Limits := do
  let stackMap ← ask (stackMapTable h.entry h.frames)
  return ⟨h.maxStack, h.maxLocals.elim (← get).maxLocals UInt16.toNat, stackMap⟩

theorem computeFrames_eq (entry : Label) :
    (do
      let (maxStack, stackMap) ← computeFrames entry
      return (⟨UInt16.ofNat maxStack, (← get).maxLocals, stackMap⟩ : Limits)) =
      handOverComputed entry >>= storeFrames := by
  simp only [computeFrames, handOverComputed, bind_assoc]
  refine bind_congr fun b => bind_congr fun inputs => bind_congr fun _ => bind_congr fun _ =>
    bind_congr fun plan => ?_
  generalize (if plan.replaced then max inputs.maxStack 1 else inputs.maxStack) = maxStack
  split
  · rfl
  · simp only [bind_assoc, pure_bind, storeFrames]
    rfl

theorem givenStackMap_eq (maxStack : UInt16) (maxLocals : Option UInt16) :
    (do
      let stackMap ← givenStackMap
      return (⟨maxStack, maxLocals.elim (← get).maxLocals UInt16.toNat, stackMap⟩ : Limits)) =
      handOverGiven maxStack maxLocals >>= storeFrames := by
  simp only [givenStackMap, handOverGiven, bind_assoc, pure_bind, storeFrames]

/-- The maximums and frames of a body are settled before its frames are stored. -/
theorem limits_eq (entry : Label) (stack locals : UInt16) :
    limits entry stack locals = handOver entry stack locals >>= storeFrames := by
  simp only [limits, handOver, bind_assoc]
  refine bind_congr fun b => ?_
  split
  · simp only [bind_assoc]
    exact bind_congr fun _ => computeFrames_eq entry
  · split
    · simp only [bind_assoc]
      refine bind_congr fun _ => bind_congr fun b => ?_
      split
      · rfl
      · exact givenStackMap_eq _ none
    · exact givenStackMap_eq stack (some locals)

/-- Settles branch distances, the maximums and the frames of a body. -/
def settleBody (stack locals : UInt16) : Assemble Handover := do
  match (← get).entry with
  | none => throw .codeNotStarted
  | some entry =>
    let size := (← get).code.size
    if 65536 ≤ size then throw (.methodCodeOverflow size)
    modify fun b => { b with graph := b.graph.resolve }
    patch (← get).fixups.toList
    handOver entry stack locals

/-- Completes a body whose maximums and frames are settled. -/
def completeBody (limits : Limits) : Assemble Unit := do
  if 65536 ≤ limits.maxLocals then throw (.maxLocalsOverflow limits.maxLocals)
  let table ← exceptionTable
  let b ← get
  set { b with lines := #[] }
  let lines ← ask (b.graph.lineNumberTable b.lines.toList)
  modify fun b => { b with vars := #[] }
  let vars ← ask (b.graph.localVariableTable b.vars.toList)
  modify fun b => { b with codeAttributes := #[] }
  let raw ← ask (Attribute.makeRaw b.codeAttributes.toList)
  let attributes := lines ++ vars ++ raw ++ limits.stackMap
  let _ ← Step.of (count16 "code attributes" attributes.length)
  let code := (← get).code
  modify fun b => { b with code := #[] }
  let body ← ask (Attribute.make
    (.code limits.maxStack (UInt16.ofNat limits.maxLocals) code table attributes))
  modify fun b => { b with body := some body }

/-- The end of a body settles what is known about it, stores its frames and completes it. -/
theorem finishBody_eq (stack locals : UInt16) :
    finishBody stack locals = (do
      let h ← settleBody stack locals
      completeBody (← storeFrames h)) := by
  simp only [finishBody, settleBody, limits_eq, bind_assoc]
  refine bind_congr fun b => ?_
  cases b.entry with
  | none => rfl
  | some entry =>
    simp only [bind_assoc]
    refine bind_congr fun b => ?_
    split
    · rfl
    · simp only [bind_assoc]
      rfl

end JvmClass.MethodBuilder
