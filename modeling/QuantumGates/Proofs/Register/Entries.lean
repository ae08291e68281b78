-- A homomorphism of rings applied to every entry of a matrix, such as conjugation. It keeps
-- products and lifted gates.
import QuantumGates.Proofs.Register.Basis

namespace QuantumGates

open Finset

section

variable {K L : Type} [Semiring K] [Semiring L] {n : ℕ} {a b m : Mat K} (σ : K →+* L)

namespace Mat

/-- Every entry sent through a homomorphism. -/
def mapEntries (m : Mat K) : Mat L := ofFn m.rows m.cols fun r c => σ (m.get r c)

theorem isSquare_mapEntries (hm : m.IsSquare n) : (m.mapEntries σ).IsSquare n := hm

theorem get_mapEntries (hm : m.IsSquare n) {r c : ℕ} (hr : r < n) (hc : c < n) :
    (m.mapEntries σ).get r c = σ (m.get r c) :=
  get_ofFn _ (by rwa [hm.1]) (by rwa [hm.2])

theorem mapEntries_mul (ha : a.IsSquare n) (hb : b.IsSquare n) :
    (a.mul b).mapEntries σ = (a.mapEntries σ).mul (b.mapEntries σ) := by
  have ha' := isSquare_mapEntries σ ha
  have hb' := isSquare_mapEntries σ hb
  refine (isSquare_mapEntries σ (ha.mul hb)).ext (ha'.mul hb') fun r hr c hc => ?_
  rw [get_mapEntries σ (ha.mul hb) hr hc, get_mul ha hb hr hc, get_mul ha' hb' hr hc, map_sum]
  refine sum_congr rfl fun k hk => ?_
  have hk' := mem_range.mp hk
  rw [get_mapEntries σ ha hr hk', get_mapEntries σ hb hk' hc, map_mul]

theorem mapEntries_diagonal (n : ℕ) (f : ℕ → K) :
    (diagonal n f).mapEntries σ = diagonal n fun k => σ (f k) := by
  have hd := isSquare_diagonal n f
  refine (isSquare_mapEntries σ hd).ext (isSquare_diagonal n _) fun r hr c hc => ?_
  rw [get_mapEntries σ hd hr hc, get_diagonal f hr hc, get_diagonal _ hr hc, apply_ite σ, map_zero]

theorem mapEntries_identity (n : ℕ) :
    (identity n : Mat K).mapEntries σ = (identity n : Mat L) := by
  have hi := isSquare_identity (K := K) n
  refine (isSquare_mapEntries σ hi).ext (isSquare_identity n) fun r hr c hc => ?_
  rw [get_mapEntries σ hi hr hc, get_identity hr hc, get_identity hr hc, apply_ite σ, map_one,
    map_zero]

end Mat

theorem mapEntries_liftGate {qs : List ℕ} (hm : m.IsSquare (2 ^ qs.length)) (hd : qs.Nodup)
    (hq : ∀ q ∈ qs, q < n) :
    (liftGate m qs n).mapEntries σ = liftGate (m.mapEntries σ) qs n := by
  have hl := isSquare_liftGate m qs n
  refine (Mat.isSquare_mapEntries σ hl).ext (isSquare_liftGate _ qs n) fun r hr c hc => ?_
  rw [Mat.get_mapEntries σ hl hr hc, get_liftGate_packed m hd hq hr hc,
    get_liftGate_packed _ hd hq hr hc,
    Mat.get_mapEntries σ hm (packBits_lt n qs r) (packBits_lt n qs c), apply_ite σ, map_zero]

end

end QuantumGates
