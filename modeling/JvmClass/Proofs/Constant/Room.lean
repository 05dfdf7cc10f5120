import JvmClass.Constant.Pool

/-!
# Room in the pool

A request for a constant can only fail if the pool is full.
-/

namespace JvmClass.ConstantPool

variable {p : ConstantPool} {used : Nat}

/-- A constant has an index as long as the pool has room for two more entries. -/
theorem intern_of_room (constant : Constant) (hp : p.nextIndex.toNat ≤ used)
    (hroom : used + 2 < 65536) :
    ∃ index p', intern constant p = .ok index p' ∧ p'.nextIndex.toNat ≤ used + 2 := by
  have hwidth : constant.width ≤ 2 := by
    unfold Constant.width
    split <;> omega
  unfold intern
  cases p.indices[constant]? with
  | some index => exact ⟨index, p, rfl, by omega⟩
  | none =>
    have hnext : p.nextIndex.toNat + constant.width < 65536 := by omega
    simp only [indexAfter, if_pos hnext]
    refine ⟨_, _, rfl, ?_⟩
    simp only [UInt16.toNat_ofNat']
    omega

end JvmClass.ConstantPool
