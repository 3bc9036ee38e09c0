import GraphQL.Proofs.Coercion.Inline
import GraphQL.Proofs.Decimal.Range

/-!
Coercion of input values as a retraction.

Whatever coercion to a type returns is canonical for the type, and what is canonical is returned as
it is (`TypeRef.coerceInput_retracts`).
-/

set_option autoImplicit false

namespace GraphQL

open Json

/-- Values of scalars, enums and input objects may be given; the other types are for output only. -/
def TypeDefinition.isInput : TypeDefinition → Bool
  | scalar _ => true
  | enum _ => true
  | input _ => true
  | _ => false

theorem Schema.Canonical.isNull_of_not_isInput {schema : Schema} {name : String} {v : Value}
    (h : schema.Canonical (.named name) v)
    (hname : ∀ d, schema.type? name = some d → d.isInput = false) : v.isNull = true := by
  cases h with
  | null => rfl
  | scalar _ hd | enum hd _ | input hd _ => cases hname _ hd

/-- Coercion to a type maps all values that it accepts onto the canonical ones and leaves these as
they are, so that coercing again changes nothing. All numbers are canonical for floats, and no value
but null is canonical for a type that is unknown or for output only. -/
theorem TypeRef.coerceInput_retracts {schema : Schema} (hs : schema.Loaded) :
    (∀ (type : TypeRef) (value v : Value), type.coerceInput schema value = .ok v →
        schema.Canonical type v ∧ type.coerceInput schema v = .ok v) ∧
      (∀ (type : TypeRef) (v : Value), schema.Canonical type v →
        type.coerceInput schema v = .ok v) ∧
      (∀ n : Number, n.InRange → schema.Canonical .float (.number n)) ∧
      ∀ (name : String) (v : Value), (∀ d, schema.type? name = some d → d.isInput = false) →
        schema.Canonical (.named name) v → v = .null := by
  have hkeep : ∀ (type : TypeRef) (v : Value), schema.Canonical type v →
      type.coerceInput schema v = .ok v := fun _ _ h => coerceInput_of_canonical hs.distinctFields h
  refine ⟨fun type value v h => ?_, hkeep, fun n hn => .float (Number.isFinite_toDouble hn), ?_⟩
  · have hc := canonical_of_coerceInput h
    exact ⟨hc, hkeep type v hc⟩
  · intro name v hname h
    exact Value.eq_null_of_isNull (h.isNull_of_not_isInput hname)

/-- A single value becomes a list, and the list stays one. -/
theorem TypeRef.coerceInput_retracts_list :
    (Schema.small none).Canonical (.nonNull (.list .id)) (.array [.string "7"]) ∧
      (TypeRef.nonNull (.list .id)).coerceInput (.small none) (.array [.string "7"]) =
        .ok (.array [.string "7"]) := by
  have hcoerce : (TypeRef.nonNull (.list .id)).coerceInput (.small none) (.int 7) =
      .ok (.array [.string "7"]) := by rfl
  exact (coerceInput_retracts (.parse Schema.parse_small)).1 _ _ _ hcoerce

end GraphQL
