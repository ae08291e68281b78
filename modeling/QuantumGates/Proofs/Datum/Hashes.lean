-- Equality and hashes of parameters. The hash of a number is its residue, whatever it is written
-- as, so a parameter has the hash of every value that is equal to it but for whole numbers that
-- had to be rounded: those are compared as doubles and hashed without loss. A set of qubits is
-- equal to what it holds and never has its hash.
import Mathlib.Data.Nat.ModEq
import QuantumGates.Proofs.Datum.Values
import QuantumGates.Proofs.Number.WholeDoubles

namespace QuantumGates

/-! ## Residues -/

namespace HashKey

end HashKey

/-! ## Equal numbers -/

theorem Exact.eq_of_equal {a b : Exact} (h : a.equal b = true) : a = b ∧ a ≠ .undefined := by
  cases a with
  | undefined => cases h
  | finite x => exact ⟨eq_of_beq h, nofun⟩
  | infinite negative => exact ⟨eq_of_beq h, nofun⟩

theorem Exact.equal_comm (a b : Exact) : a.equal b = b.equal a := by
  rw [Bool.eq_iff_iff]
  have hsymm {a b : Exact} (h : a.equal b = true) : b.equal a = true := by
    obtain ⟨rfl, -⟩ := eq_of_equal h
    exact h
  exact ⟨hsymm, hsymm⟩

namespace HashKey

/-- The hash of a number that is not undefined is the same as itself. -/
theorem same_ofParts {a : Exact} (h : a ≠ .undefined) :
    (ofParts a (.ofInt 0)).same (ofParts a (.ofInt 0)) = true := by
  have hzero : ofExact? (.ofInt 0) = some 0 := by decide
  unfold ofParts
  rw [hzero]
  cases a with
  | undefined => exact absurd rfl h
  | finite x => exact beq_self_eq_true _
  | infinite negative => exact beq_self_eq_true _

theorem same_ofText (s : String) : (ofText s).same (ofText s) = true := by
  unfold ofText
  split <;> exact beq_self_eq_true _

/-- Equal parameters have the same hash. -/
theorem same_ofParam {p q : Param Float} (h : p.equal q = true) :
    (ofParam p).same (ofParam q) = true := by
  cases p with
  | literal x =>
    cases q with
    | literal y =>
      obtain ⟨heq, hne⟩ := Exact.eq_of_equal ((Exact.equal_ofFloat x y).trans h)
      show (ofParts (.ofFloat x) (.ofInt 0)).same (ofParts (.ofFloat y) (.ofInt 0)) = true
      rw [← heq]
      exact same_ofParts hne
    | expression t => cases h
  | expression s =>
    cases q with
    | literal y => cases h
    | expression t =>
      obtain rfl : s = t := eq_of_beq h
      exact same_ofText s

theorem same_ofNat (n : ℕ) : (ofNat n).same (ofNat n) = true :=
  same_ofParts nofun

/-- Rows whose members have the same hashes have the same hash. -/
theorem sameAll_of_agree {A : Type} {same : A → A → Bool} {f : A → HashKey}
    (h : ∀ a b, same a b = true → (f a).same (f b) = true) {as bs : List A}
    (hagree : FieldValue.agree same as bs = true) : sameAll (as.map f) (bs.map f) = true := by
  induction as generalizing bs with
  | nil =>
    cases bs with
    | nil => rfl
    | cons => cases hagree
  | cons a as ih =>
    cases bs with
    | nil => cases hagree
    | cons b bs =>
      rw [FieldValue.agree, Bool.and_eq_true] at hagree
      rw [List.map_cons, List.map_cons, sameAll, h a b hagree.1, ih hagree.2, Bool.and_true]

/-- Equal values of fields have the same hash. -/
theorem same_ofField {v w : FieldValue (Param Float)} (h : v.equalBy Param.equal w = true) :
    (ofField v).same (ofField w) = true := by
  cases v <;> cases w <;> try cases h
  case qubit.qubit p q =>
    obtain rfl : p = q := eq_of_beq h
    exact same_ofNat p
  case qubits.qubits ps qs =>
    obtain rfl : ps = qs := eq_of_beq h
    show sameAll (ps.map ofNat) (ps.map ofNat) = true
    induction ps with
    | nil => rfl
    | cons p ps ih =>
      rw [List.map_cons, sameAll, same_ofNat, ih (beq_self_eq_true _), Bool.and_true]
  case parameter.parameter p q => exact same_ofParam h
  case parameters.parameters ps qs => exact sameAll_of_agree (fun p q hpq => same_ofParam hpq) h
  case flag.flag b c =>
    obtain rfl : b = c := eq_of_beq h
    exact same_ofNat _
  case name.name s t =>
    obtain rfl : s = t := eq_of_beq h
    exact same_ofText s

/-- Equal operations have the same hash. -/
theorem same_ofOperation {a b : Operation (Param Float)} (h : a.equal b = true) :
    (ofOperation a).same (ofOperation b) = true := by
  have hvalues : ∀ vs ws : List (FieldValue (Param Float)), Operation.agree vs ws = true →
      sameAll (vs.map ofField) (ws.map ofField) = true := by
    intro vs
    induction vs with
    | nil =>
      intro ws hagree
      cases ws with
      | nil => rfl
      | cons => cases hagree
    | cons v vs ih =>
      intro ws hagree
      cases ws with
      | nil => cases hagree
      | cons w ws =>
        rw [Operation.agree, Bool.and_eq_true] at hagree
        rw [List.map_cons, List.map_cons, sameAll, same_ofField hagree.1, ih ws hagree.2,
          Bool.and_true]
  obtain ⟨hkind, hagree⟩ := Bool.and_eq_true_iff.mp h
  show (a.kind.name == b.kind.name && _) = true
  rw [eq_of_beq hkind, beq_self_eq_true, Bool.true_and]
  exact hvalues _ _ hagree

end HashKey

theorem Param.equal_comm (p q : Param Float) : p.equal q = q.equal p := by
  cases p with
  | literal x =>
    cases q with
    | literal y =>
      show (x == y) = (y == x)
      rw [← Exact.equal_ofFloat, Exact.equal_comm, Exact.equal_ofFloat]
    | expression t => rfl
  | expression s =>
    cases q with
    | literal y => rfl
    | expression t =>
      show (s == t) = (t == s)
      rw [Bool.eq_iff_iff, beq_iff_eq, beq_iff_eq]
      exact eq_comm

namespace Datum

/-! ## Parameters and other values -/

variable {p q : Param Float} {d : Datum}

/-- A parameter is compared with the parameter that is made of the value. -/
theorem parameter_equal (p : Param Float) (d : Datum) :
    (parameter p).equal d = equalsParam p d := by
  simp [equal, equalPlain]

theorem equalsParam_eq (h : d.parameter? = some (.ok q)) :
    equalsParam p d = .ok (p.equal q) := by
  unfold equalsParam
  rw [h]
  rfl

theorem equal_parameter (h : d.parameter? = some (.ok q)) :
    d.equal (parameter p) = .ok (p.equal q) := by
  have hsides : d.equal (parameter p) = equalsParam p d := by
    cases d with
    | parameter r =>
      rw [parameter_equal, equalsParam_eq rfl, equalsParam_eq rfl, Param.equal_comm]
    | boolean | integer | number | text => simp [equal, equalPlain]
    | _ => cases h
  rw [hsides, equalsParam_eq h]

/-- A value that the parameter made of it has the hash of. -/
structure KeepsHash (d : Datum) (q : Param Float) : Prop where
  parameter : d.parameter? = some (.ok q)
  hash : d.hashKey = .ok (.ofParam q)

/-- A parameter that is equal to such a value is the same key. -/
theorem KeepsHash.sameKey (h : d.KeepsHash q) (hequal : p.equal q = true) :
    (Datum.parameter p).sameKey d = .ok true ∧ d.sameKey (Datum.parameter p) = .ok true := by
  have hfirst := (parameter_equal p d).trans (equalsParam_eq h.parameter)
  have hsecond := equal_parameter (p := p) h.parameter
  rw [hequal] at hfirst hsecond
  refine ⟨sameKey_of_equal rfl h.hash hfirst fun _ => HashKey.same_ofParam hequal,
    sameKey_of_equal h.hash rfl hsecond fun _ => HashKey.same_ofParam ?_⟩
  rwa [Param.equal_comm]

end Datum

end QuantumGates
