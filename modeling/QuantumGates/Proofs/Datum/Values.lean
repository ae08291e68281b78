-- Values that are read, compared and looked up. Numbers, truths and texts are equal just when they
-- are the same number, truth or text, and lists when their members are. A mapping whose keys are
-- told apart gives for a key what the list of its entries does, and two of them are equal when
-- each entry of one has an equal value in the other.
import QuantumGates.Proofs.Number.Comparison
import QuantumGates.Proofs.Results

namespace QuantumGates

theorem Exact.equal_ofInt (m n : ℤ) : (ofInt m).equal (ofInt n) = (m == n) := by
  rw [Bool.eq_iff_iff, beq_iff_eq, ← BigFloat.normal_ofInt_inj]
  show ((Exact.finite _ == Exact.finite _) = true) ↔ _
  rw [beq_iff_eq, Exact.finite.injEq]

namespace Datum

/-! ## Plain values -/

theorem qubit_natCast (q : ℕ) : (integer q).qubit = .ok q := by
  unfold qubit
  show (if (q : ℤ) < 0 then Except.error (.negativeQubit q) else Except.ok (q : ℤ).toNat) = _
  rw [if_neg (by omega), Int.toNat_natCast]

theorem equal_integer (m n : ℤ) : (integer m).equal (integer n) = .ok (m == n) := by
  simp [equal, equalPlain, parts?, Exact.equal_ofInt]

theorem equal_number (x y : Float) : (number x).equal (number y) = .ok (x == y) := by
  simp [equal, equalPlain, parts?, Exact.equal_ofInt, Exact.equal_ofFloat]

theorem equal_boolean (a b : Bool) : (boolean a).equal (boolean b) = .ok (a == b) := by
  cases a <;> cases b <;> simp [equal, equalPlain, parts?, Exact.equal_ofInt]

theorem equal_text (s t : String) : (text s).equal (text t) = .ok (s == t) := by
  simp [equal, equalPlain]

/-! ## Lists -/

section

variable {A : Type} {f : A → Datum} {same : A → A → Bool}

theorem equalAll_map (h : ∀ a b, (f a).equal (f b) = .ok (same a b)) (as bs : List A) :
    equalAll (as.map f) (bs.map f) = .ok (FieldValue.agree same as bs) := by
  induction as generalizing bs with
  | nil => cases bs <;> simp [equalAll, FieldValue.agree]
  | cons a as ih =>
    cases bs with
    | nil => simp [equalAll, FieldValue.agree]
    | cons b bs =>
      rw [List.map_cons, List.map_cons, equalAll, h, FieldValue.agree]
      cases same a b with
      | true => exact ih bs
      | false => rfl

theorem length_eq_of_agree {as bs : List A} (h : FieldValue.agree same as bs = true) :
    as.length = bs.length := by
  induction as generalizing bs with
  | nil =>
    cases bs with
    | nil => rfl
    | cons => cases h
  | cons a as ih =>
    cases bs with
    | nil => cases h
    | cons b bs =>
      rw [FieldValue.agree, Bool.and_eq_true] at h
      rw [List.length_cons, List.length_cons, ih h.2]

theorem equal_list (h : ∀ a b, (f a).equal (f b) = .ok (same a b)) (as bs : List A) :
    (list (as.map f)).equal (list (bs.map f)) = .ok (FieldValue.agree same as bs) := by
  rw [equal]
  simp only [List.length_map, equalAll_map h]
  by_cases hlength : as.length = bs.length
  · rw [if_neg (not_not.mpr hlength)]
  · rw [if_pos hlength, Bool.eq_false_iff.mpr fun hagree => hlength
      (length_eq_of_agree hagree)]

end

/-! ## Keys -/

theorem sameHash_of_hashKey {a b : Datum} {j k : HashKey} (ha : a.hashKey = .ok j)
    (hb : b.hashKey = .ok k) : a.sameHash b = .ok (j.same k) := by
  unfold sameHash
  rw [ha, hb]
  rfl

/-- Values with hashes are the same key when they are equal, if equal ones have the same hash. -/
theorem sameKey_of_equal {a b : Datum} {j k : HashKey} {same : Bool} (ha : a.hashKey = .ok j)
    (hb : b.hashKey = .ok k) (hequal : a.equal b = .ok same)
    (hhash : same = true → j.same k = true) : a.sameKey b = .ok same := by
  unfold sameKey
  rw [sameHash_of_hashKey ha hb, hequal]
  cases same with
  | true =>
    rw [hhash rfl]
    rfl
  | false => cases j.same k <;> rfl

theorem sameKey_integer (m n : ℤ) : (integer m).sameKey (integer n) = .ok (m == n) := by
  refine sameKey_of_equal rfl rfl (equal_integer m n) fun hmn => ?_
  rw [eq_of_beq hmn]
  exact beq_self_eq_true _

theorem sameKey_text (s t : String) : (text s).sameKey (text t) = .ok (s == t) := by
  refine sameKey_of_equal rfl rfl (equal_text s t) fun hst => ?_
  rw [eq_of_beq hst]
  unfold HashKey.ofText
  split <;> exact beq_self_eq_true _

section

variable {K A : Type} [BEq K] (key : K → Datum) (f : A → Datum)

/-- A mapping whose keys are told apart like the keys of a list of entries has the value that the
list has. -/
theorem lookup_map (hkey : ∀ a b, (key a).sameKey (key b) = .ok (a == b)) {k : K}
    (hhash : ∃ h, (key k).hashKey = .ok h) (es : List (K × A)) :
    lookup (key k) (es.map fun e => (key e.1, f e.2)) = .ok ((es.lookup k).map f) := by
  induction es with
  | nil =>
    obtain ⟨h, hh⟩ := hhash
    rw [List.map_nil, lookup, hh]
    rfl
  | cons e es ih =>
    rw [List.map_cons, lookup, hkey, List.lookup_cons]
    cases k == e.1 with
    | true => rfl
    | false => exact ih

/-- The value of a key is tested if the mapping has one. -/
theorem atKey_map (hkey : ∀ a b, (key a).sameKey (key b) = .ok (a == b)) (k : K)
    (test : Datum → Except (Fault Float) Bool) (es : List (K × A)) :
    atKey (key k).sameKey test (es.map fun e => (key e.1, f e.2)) =
      match es.lookup k with
      | some a => test (f a)
      | none => .ok false := by
  induction es with
  | nil => rfl
  | cons e es ih =>
    rw [List.map_cons, atKey, hkey, List.lookup_cons]
    cases k == e.1 with
    | true => rfl
    | false => exact ih

variable {same : A → A → Bool} {es fs : List (K × A)}

theorem allEntriesIn_map (hkey : ∀ a b, (key a).sameKey (key b) = .ok (a == b))
    (hvalue : ∀ e ∈ es, ∀ b, fs.lookup e.1 = some b → (f e.2).equal (f b) = .ok (same e.2 b)) :
    allEntriesIn (fs.map fun e => (key e.1, f e.2)) (es.map fun e => (key e.1, f e.2)) =
      .ok (es.all fun e => (fs.lookup e.1).any (same e.2)) := by
  induction es with
  | nil => simp [allEntriesIn]
  | cons e es ih =>
    have hsame : atKey (key e.1).sameKey (f e.2).equal (fs.map fun e => (key e.1, f e.2)) =
        .ok ((fs.lookup e.1).any (same e.2)) := by
      rw [atKey_map key f hkey]
      cases hlookup : fs.lookup e.1 with
      | none => rfl
      | some b => exact hvalue e List.mem_cons_self b hlookup
    have hrest := ih fun e' he' => hvalue e' (List.mem_cons_of_mem e he')
    rw [List.map_cons, allEntriesIn, List.all_cons]
    show atKey (key e.1).sameKey (f e.2).equal (fs.map fun e => (key e.1, f e.2)) >>=
      (fun found => if found then allEntriesIn _ _ else .ok false) = _
    rw [hsame, hrest]
    cases (fs.lookup e.1).any (same e.2) <;> rfl

/-- Mappings of the same size are equal when each entry of one has an equal value in the other. -/
theorem equal_mapping (hkey : ∀ a b, (key a).sameKey (key b) = .ok (a == b)) (same : A → A → Bool)
    (es fs : List (K × A)) (hlength : es.length = fs.length)
    (hvalue : ∀ e ∈ es, ∀ b, fs.lookup e.1 = some b → (f e.2).equal (f b) = .ok (same e.2 b)) :
    (mapping (es.map fun e => (key e.1, f e.2))).equal
        (mapping (fs.map fun e => (key e.1, f e.2))) =
      .ok (es.all fun e => (fs.lookup e.1).any (same e.2)) := by
  rw [equal]
  simp only [List.length_map]
  rw [if_neg (not_not.mpr hlength), allEntriesIn_map key f hkey hvalue]

end

/-- Mappings with one entry each, under a text. -/
theorem equal_singleton {s t : String} {a b : Datum} (same : Bool)
    (h : s = t → a.equal b = .ok same) :
    (mapping [(text s, a)]).equal (mapping [(text t, b)]) = .ok (s == t && same) := by
  have hvalue : ∀ e ∈ [(s, a)], ∀ c, [(t, b)].lookup e.1 = some c →
      (id e.2).equal (id c) = .ok same := by
    intro e he c hc
    cases List.mem_singleton.mp he
    rw [List.lookup_cons] at hc
    cases hst : s == t with
    | true =>
      rw [hst] at hc
      cases hc
      exact h (eq_of_beq hst)
    | false =>
      rw [hst] at hc
      cases hc
  refine (equal_mapping text id sameKey_text (fun _ _ => same) [(s, a)] [(t, b)] rfl
    hvalue).trans ?_
  rw [List.all_cons, List.all_nil, Bool.and_true, List.lookup_cons]
  cases s == t <;> rfl

/-! ## Entries with different keys -/

theorem lookup_of_mem {A : Type} {es : List (String × A)} (hnodup : (es.map Prod.fst).Nodup)
    {s : String} {a : A} (h : (s, a) ∈ es) : es.lookup s = some a := by
  induction es with
  | nil => cases h
  | cons e es ih =>
    obtain ⟨t, b⟩ := e
    rw [List.map_cons, List.nodup_cons] at hnodup
    rw [List.lookup_cons]
    rcases List.mem_cons.mp h with heq | hmem
    · cases heq
      rw [beq_self_eq_true]
    · have hne : ¬ s = t := by
        rintro rfl
        exact hnodup.1 (List.mem_map.mpr ⟨_, hmem, rfl⟩)
      rw [beq_eq_false_iff_ne.mpr hne]
      exact ih hnodup.2 hmem

end Datum

end QuantumGates
