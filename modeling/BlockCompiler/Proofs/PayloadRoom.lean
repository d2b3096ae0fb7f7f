/-
  BlockCompiler.Proofs.PayloadRoom — the room that sums have for their variants.

  A sum is spelled with a number of words for what it holds. The number is worked out in words of
  64 bits, from sizes that are.

  (1) The words reach up to 2^64 - 8 bytes at most (`payloadWords_le`). Up to there they are as many
      as the largest variant takes (`payloadWords_eq`).
  (2) So each variant has room in its sum exactly if none of them is larger than that
      (`variants_fit_iff`). One that is can be declared, and its sum is spelled with too few words
      (`sampleVast_overruns`).
-/
import BlockCompiler.Proofs.Callees
import BlockCompiler.Proofs.CodeLayout
import BlockCompiler.Proofs.LoweredNames

namespace BlockCompiler

variable {id : TypeId} {t : TypeTable}

/-! ## (1) Words of a sum -/

namespace TypeTable

variable {t : TypeTable} {variants : List TypeId} {words : UInt64}

theorem payloadWords_le (h : t.payloadWords variants = .ok words) : 8 * words.toNat ≤ sizeLimit := by
  obtain ⟨largest, -, h⟩ := bind_eq_ok.mp h
  cases h
  have hlt := (largest + 7).toNat_lt
  rw [UInt64.toNat_div]
  change 8 * ((largest + 7).toNat / 8) ≤ 2 ^ 64 - 8
  omega

theorem payloadWords_eq (hground : t.Grounded) (hints : t.PlainInts) {extent : TypeId → Extent}
    (hextent : ∀ v ∈ variants, t.Occupies v (extent v)) (hle : ∀ v ∈ variants, (extent v).size ≤ sizeLimit)
    (h : t.payloadWords variants = .ok words) : words.toNat = Extent.words (variants.map extent) := by
  have hvariants : ∀ v ∈ variants, t.byteSize v = .ok (.ofNat (extent v).size) ∧ (extent v).size ≤ sizeLimit :=
    fun v hv => ⟨byteSize_eq_of_le hground hints (hextent v hv) (hle v hv), hle v hv⟩
  obtain ⟨hwords, hlt⟩ := payloadWordsBy_exact hvariants
  cases h.symm.trans hwords
  exact toNat_ofNat_of_lt_sizeLimit hlt

end TypeTable

theorem Target.spellAggregate_sum {variants : List TypeId} {words : UInt64} (hid : t.get? id = some (.sum variants))
    (hwords : t.payloadWords variants = .ok words) (marks : List TypeId) :
    spellAggregate t id marks = .ok (.sum words) marks := by
  have hends : Ends (spellAggregate t id) marks fun T marks' => T = .sum words ∧ marks' = marks := by
    simp only [spellAggregate, ends_bind, ends_ofExcept]
    refine ⟨_, Interner.get_eq_ok.mpr hid, ?_⟩
    simp only [ends_bind, ends_ofExcept, ends_pure]
    exact ⟨words, hwords, rfl, trivial⟩
  obtain ⟨T, marks', hrun, rfl, rfl⟩ := hends
  exact hrun

/-! ## (2) Room -/

namespace Lowering

open Surface (Module)
open Target

/-- In a lowered module, each sum is spelled with a number of words, and each of its variants has an
extent. All of them have room in these words if and only if none of them takes more than 2^64 - 8 bytes;
then the words are just as many as the largest of them takes. -/
theorem variants_fit_iff {cfg : Settings} {m : Module} {journal : Log.Journal} {fns : List FunId} {s' : State}
    (h : lowerModule cfg m { journal } = .ok (.ok fns) s') {id : TypeId} {variants : List TypeId}
    (hid : s'.context.types.get? id = some (.sum variants)) (marks : List TypeId) :
    ∃ words extent, spellAggregate s'.context.types id marks = .ok (.sum words) marks ∧
      (∀ v ∈ variants, ∀ x, s'.context.types.Occupies v x ↔ x = extent v) ∧
      ((∀ v ∈ variants, (extent v).size ≤ 8 * words.toNat) ↔ ∀ v ∈ variants, (extent v).size ≤ 2 ^ 64 - 8) ∧
      ((∀ v ∈ variants, (extent v).size ≤ 2 ^ 64 - 8) → words.toNat = Extent.words (variants.map extent)) := by
  have husable := usable_of_lowerModule h
  have hground := husable.grounded
  have hints : s'.types.PlainInts := fun _ _ _ hint => width_of_lowerModule h hint
  have hlt : ∀ v ∈ variants, v.index < s'.types.size := fun v hv => hground.whole id _ hid v hv
  have hwf := husable.acyclic.wellFounded husable.sound
  have : Nonempty Extent := ⟨⟨0, 1⟩⟩
  choose! extent hextent using fun v hv => TypeTable.exists_occupies hground.whole hwf (hlt v hv)
  obtain ⟨words, hwords⟩ := hground.whole.payloadWords_ok husable.acyclic hlt
  have hexact := fun hle => TypeTable.payloadWords_eq hground hints hextent hle hwords
  refine ⟨words, extent, ?_, fun v hv x => ⟨fun hx => hx.unique (hextent v hv), fun hx => hx ▸ hextent v hv⟩,
    ⟨fun hfit v hv => ?_, fun hle v hv => ?_⟩, hexact⟩
  · exact spellAggregate_sum hid hwords marks
  · exact (hfit v hv).trans (TypeTable.payloadWords_le hwords)
  · rw [hexact hle]
    exact Extent.size_le_words (List.mem_map_of_mem hv)

/-- A sum of a flag and an array of so many numbers of 64 bits. -/
def sampleVast (length : UInt64) : Module where
  name := "vast"
  file := 0
  types := [⟨"Vast", .sum [.bool .none, .array (.int ⟨true, .w64⟩ .none) length .none] .none, .none⟩]
  funs := []

theorem occupies_of_uniform {ty : Ty} {x : Extent} (hid : t.get? id = some ty) (h : ∀ m ∈ ty.parts, t.Occupies m x)
    : t.Occupies id (ty.extent fun _ => x) := .of_parts hid h

theorem occupies_numbers {length : UInt64} (hint : t.get? ⟨3⟩ = some (.int true 64))
    (hid : t.get? id = some (.array ⟨3⟩ length)) : t.Occupies id ⟨length.toNat * 8, 8⟩ := by
  refine occupies_of_uniform (x := ⟨8, 8⟩) hid fun u hu => ?_
  cases List.mem_singleton.mp hu
  exact occupies_of_uniform (x := ⟨8, 8⟩) hint fun v hv => by cases hv

theorem sampleVast_fit : ∃ fns s', lowerModule {} (sampleVast 3) {} = .ok (.ok fns) s' ∧
    s'.context.types.get? ⟨15⟩ = some (.sum [TypeId.bool, ⟨14⟩]) ∧
    spellAggregate s'.context.types ⟨15⟩ [] = .ok (.sum 3) [] ∧
    ∃ x, s'.context.types.Occupies ⟨14⟩ x ∧ x.size = 24 ∧ x.size ≤ 8 * (3 : UInt64).toNat := by
  have hrun : lowersTo (sampleVast 3) fun s => decide (s.types.get? ⟨3⟩ = some (.int true 64) ∧
      s.types.get? ⟨8⟩ = some .bool ∧ s.types.get? ⟨14⟩ = some (.array ⟨3⟩ 3) ∧
      s.types.get? ⟨15⟩ = some (.sum [TypeId.bool, ⟨14⟩]) ∧
      s.types.payloadWords [TypeId.bool, ⟨14⟩] = .ok 3) := by decide +kernel
  obtain ⟨fns, s', h, htest⟩ := exists_of_lowersTo hrun
  obtain ⟨hint, hbool, harray, hsum, hwords⟩ := of_decide_eq_true htest
  obtain ⟨words, extent, hspelled, hextent, hiff, -⟩ := variants_fit_iff h hsum []
  have hflag : s'.types.Occupies TypeId.bool ⟨1, 1⟩ :=
    occupies_of_uniform (x := ⟨1, 1⟩) hbool fun v hv => by cases hv
  have hnumbers := occupies_numbers hint harray
  cases hspelled.symm.trans (spellAggregate_sum hsum hwords [])
  have hfit := hiff.mpr fun v hv => by
    rcases List.mem_pair.mp hv with rfl | rfl
    · rw [← (hextent _ hv _).mp hflag]
      decide
    · rw [← (hextent _ hv _).mp hnumbers]
      decide
  refine ⟨fns, s', h, hsum, hspelled, _, hnumbers, rfl, ?_⟩
  rw [(hextent ⟨14⟩ (by simp) _).mp hnumbers]
  exact hfit ⟨14⟩ (by simp)

/-- An array of 2^61 numbers takes 2^64 bytes, and its sum has one word for it. -/
theorem sampleVast_overruns : ∃ fns s', lowerModule {} (sampleVast (2305843009213693952)) {} = .ok (.ok fns) s' ∧
    s'.context.types.get? ⟨15⟩ = some (.sum [TypeId.bool, ⟨14⟩]) ∧
    spellAggregate s'.context.types ⟨15⟩ [] = .ok (.sum 1) [] ∧
    ∃ x, s'.context.types.Occupies ⟨14⟩ x ∧ x.size = 2 ^ 64 ∧ ¬ x.size ≤ 8 * (1 : UInt64).toNat := by
  have hrun : lowersTo (sampleVast (2305843009213693952)) fun s => decide (s.types.get? ⟨3⟩ = some (.int true 64) ∧
      s.types.get? ⟨14⟩ = some (.array ⟨3⟩ (2305843009213693952)) ∧
      s.types.get? ⟨15⟩ = some (.sum [TypeId.bool, ⟨14⟩]) ∧
      s.types.payloadWords [TypeId.bool, ⟨14⟩] = .ok 1) := by decide +kernel
  obtain ⟨fns, s', h, htest⟩ := exists_of_lowersTo hrun
  obtain ⟨hint, harray, hsum, hwords⟩ := of_decide_eq_true htest
  have hsize : (2305843009213693952 : UInt64).toNat * 8 = 2 ^ 64 := by decide +kernel
  exact ⟨fns, s', h, hsum, spellAggregate_sum hsum hwords [], _, occupies_numbers hint harray, hsize,
    by rw [hsize]; decide⟩

end Lowering

end BlockCompiler
