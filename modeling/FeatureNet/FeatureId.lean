import FeatureNet.Decimal.Whole

namespace FeatureNet

/-- The identity of a vertex or connector feature. -/
structure FeatureId where
  value : Int64
deriving DecidableEq, Hashable, Inhabited

namespace FeatureId

instance : LT FeatureId := ⟨fun a b => a.value < b.value⟩

instance (a b : FeatureId) : Decidable (a < b) := inferInstanceAs (Decidable (a.value < b.value))

instance : Ord FeatureId := ⟨fun a b => compare a.value b.value⟩

instance {n : Nat} : OfNat FeatureId n := ⟨⟨OfNat.ofNat n⟩⟩

def toInt (id : FeatureId) : Int := id.value.toInt

/-- The number in decimal. -/
def text (id : FeatureId) : String := String.ofList (Decimal.integerText id.toInt)

/-- The id of a number, if it fits in 64 bits. -/
def ofInt? (n : Int) : Option FeatureId :=
  if -0x8000000000000000 ≤ n ∧ n < 0x8000000000000000 then some ⟨Int64.ofInt n⟩ else none

theorem toInt_inj {a b : FeatureId} : a.toInt = b.toInt ↔ a = b := by
  cases a; cases b; simp [toInt, Int64.toInt_inj]

theorem lt_iff {a b : FeatureId} : a < b ↔ a.toInt < b.toInt := Int64.lt_iff_toInt_lt

theorem ofInt?_toInt (id : FeatureId) : ofInt? id.toInt = some id := by
  rw [ofInt?, if_pos ⟨Int64.le_toInt id.value, Int64.toInt_lt id.value⟩, toInt, Int64.ofInt_toInt]

theorem lt_irrefl (a : FeatureId) : ¬a < a := by simp [lt_iff]

instance : Std.Irrefl (α := FeatureId) (· < ·) := ⟨lt_irrefl⟩

theorem lt_trans {a b c : FeatureId} (ab : a < b) (bc : b < c) : a < c := by
  rw [lt_iff] at *; omega

theorem lt_of_not_lt_of_ne {a b : FeatureId} (notLess : ¬a < b) (different : a ≠ b) : b < a := by
  rw [lt_iff] at *
  have := mt toInt_inj.mp different
  omega

theorem ne_of_lt {a b : FeatureId} (less : a < b) : a ≠ b := by
  rintro rfl; exact lt_irrefl a less

end FeatureId

end FeatureNet
