import JvmClass.Proofs.Constant.Interning

/-!
# The section of a pool

A pool writes its count and the bytes of its entries, whatever was written before
(`ConstantPool.stored`). Reading takes those bytes wherever they stand and finds the entries that
the pool stores. A pool that was made from nothing stores what it answers and nothing else, since a
request that fails leaves no bytes behind other than those of the entries that it had asked for.
-/

namespace JvmClass.ConstantPool

variable {p : ConstantPool} {v : SlotVec Constant} {i : PoolIndex} {c : Constant}

/-- The bytes of the pool section. -/
def stored (p : ConstantPool) : List UInt8 := bytes16 p.nextIndex ++ p.bytes.toList

theorem length_stored (p : ConstantPool) : p.stored.length = p.byteSize := by
  simp [stored, byteSize]

/-- A pool is always written. -/
theorem put_stored (p : ConstantPool) (out : Bytes) : p.put out = .ok () (out.putAll p.stored) :=
  ((Put.writes_u16 p.nextIndex).andThen (Put.writes_bytes p.bytes) out () _).2
    ⟨⟨trivial, trivial⟩, rfl⟩

theorem Backed.reads_stored (h : p.Backed v) : Scan.Reads Constant.readPool p.stored v :=
  Constant.reads_readPool h.run h.next

theorem Backed.map_indexed (h : p.Backed v) :
    (indexed v).map (fun e => (e.1.toNat, e.2)) = v.entries.toList := by
  rw [indexed, List.map_map]
  refine (List.map_congr_left fun e he => ?_).trans (List.map_id _)
  obtain ⟨offset, c⟩ := e
  exact Prod.ext (h.toNat_offset he) rfl

/-- What a pool from nothing stores are the entries that it answers with. -/
theorem Extended.backed_items (h : empty.Extended p) :
    ∃ v, p.Backed v ∧ v.entries.toList = p.items.toList.map fun e => (e.1.toNat, e.2) := by
  obtain ⟨cs, hcs⟩ := backed_empty.extended h
  obtain ⟨fresh, hv, hp⟩ := hcs.items
  refine ⟨_, hcs.backed, ?_⟩
  rw [← hcs.backed.map_indexed, hv, hp]
  rfl

/-- The entry that is read at an index is the one that the pool has there. -/
theorem Interned.get?_read (h : p.Interned) (hv : v.Laid)
    (he : v.entries.toList = p.items.toList.map fun e => (e.1.toNat, e.2)) (i : PoolIndex) :
    v.get? i.toNat = p.get? i := by
  refine Option.ext fun c => ⟨fun hc => ?_, fun hc => ?_⟩
  · have hm := SlotVec.mem_of_get? hc
    rw [he] at hm
    obtain ⟨⟨j, d⟩, hitem, hj⟩ := List.mem_map.1 hm
    obtain ⟨hji, rfl⟩ := Prod.mk.inj hj
    obtain rfl := UInt16.toNat_inj.1 hji
    exact h.get?_of_mem hitem
  · refine SlotVec.get?_of_mem Constant.width_pos hv ?_
    rw [he]
    exact List.mem_map.2 ⟨(i, c), mem_of_get? hc, rfl⟩

/-- A pool that requests have made from nothing, answered or not, is written behind anything; what
is written is as long as was announced and, followed by anything, reads back as the entries of the
pool at their indices. -/
theorem section_reads_back (requests : List PoolRequest) (front back : Bytes) :
    let p := empty.afterAll requests
    ∃ written v, p.put front = .ok () (front ++ written) ∧ written.size = p.byteSize ∧
      Constant.readPool ⟨front ++ written ++ back, front.size⟩ =
        .ok v ⟨front ++ written ++ back, front.size + p.byteSize⟩ ∧
      v.entries.toList = p.items.toList.map (fun e => (e.1.toNat, e.2)) ∧
      ∀ i, v.get? i.toNat = p.get? i := by
  intro p
  obtain ⟨hp, hext⟩ := kept_interned.afterAll interned_empty requests
  obtain ⟨v, hv, he⟩ := hext.backed_items
  refine ⟨p.stored.toArray, v, ?_, ?_, ?_, he, hp.get?_read hv.laid he⟩
  · rw [← Bytes.putAll_eq]
    exact put_stored p front
  · rw [List.size_toArray, length_stored]
  · rw [← length_stored]
    exact hv.reads_stored front.size _ ⟨front.toList, back.toList, by simp [p], by simp⟩

end JvmClass.ConstantPool
