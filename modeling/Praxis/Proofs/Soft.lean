import Praxis.Lib.Orthant
import Praxis.Soft

/-!
# Soft embeddings do not cancel

A hash picks a coordinate with its last six bits and a sign with the last of these, so every
coordinate is only ever added to with one sign. The embeddings are in one orthant, and the first
token leaves a coordinate at a distance of one or more.
-/

namespace Praxis

open Orthant (Within Signs)

namespace SoftTokens

variable {st : SoftTokens} {cp : UInt32}

/-- There is a token, or one has begun. -/
def Begun (st : SoftTokens) : Prop := st.tokens ≠ [] ∨ st.current ≠ []

theorem Begun.flush (h : st.Begun) : st.flush.tokens ≠ [] := by
  unfold SoftTokens.flush
  split_ifs with hcurrent
  · exact h.resolve_right fun hne => hne (List.isEmpty_iff.1 hcurrent)
  · simp

theorem Begun.read (h : st.Begun) (cp : UInt32) : (st.read cp).Begun := by
  unfold SoftTokens.read
  split_ifs
  · exact .inl h.flush
  · exact .inl (by simp)
  · exact .inr (by simp)

theorem begun_read (st : SoftTokens) (hcp : isBlank cp = false) : (st.read cp).Begun := by
  unfold SoftTokens.read
  rw [if_neg (by simp [hcp])]
  split_ifs
  · exact .inl (by simp)
  · exact .inr (by simp)

theorem begun_foldl : ∀ (cps : List UInt32) (st : SoftTokens),
    (st.Begun ∨ ∃ cp ∈ cps, isBlank cp = false) → (cps.foldl read st).Begun
  | [], _, h => h.resolve_right (by simp)
  | cp :: cps, st, h => by
    refine begun_foldl cps (st.read cp) ?_
    rcases h with h | ⟨cp', hmem, hcp'⟩
    · exact .inl (h.read cp)
    · rcases List.mem_cons.1 hmem with rfl | hmem
      · exact .inl (begun_read st hcp')
      · exact .inr ⟨cp', hmem, hcp'⟩

theorem ofContent_ne_nil {content : Str}
    (h : ∃ cp ∈ decode_codepoints content, isBlank cp = false) : ofContent content ≠ [] :=
  (begun_foldl _ {} (.inr h)).flush

end SoftTokens

/-- The sign with which a coordinate is added to. -/
def coordinateSign (b : Fin kSoftDim) : ℚ := if b.val % 2 = 1 then 1 else -1

theorem signs_coordinateSign : Signs coordinateSign := fun b => by
  unfold coordinateSign
  split_ifs <;> norm_num

/-- The sign of a deposit is that of its coordinate. -/
theorem deposit_eq (embedding : Embedding) (tok : Str) (weight : ℚ) :
    deposit embedding tok weight
      = Function.update embedding (Fin.ofNat kSoftDim (fnv1a tok).toNat)
        (embedding (Fin.ofNat kSoftDim (fnv1a tok).toNat)
          + weight * coordinateSign (Fin.ofNat kSoftDim (fnv1a tok).toNat)) := by
  have hbit : fnv1a tok &&& 1 ≠ 0 ↔ (fnv1a tok).toNat % 64 % 2 = 1 := by
    rw [ne_eq, ← UInt64.toNat_inj, UInt64.toNat_and, show (1 : UInt64).toNat = 1 from rfl,
      show (0 : UInt64).toNat = 0 from rfl, Nat.and_one_is_mod]
    omega
  unfold deposit coordinateSign
  simp only [hbit, Fin.val_ofNat]

/-- An embedding that deposits have made, and whether one of a whole token is among them. -/
structure Deposited (embedding : Embedding) : Prop where
  within : Within coordinateSign embedding
  far : ∃ b, 1 ≤ coordinateSign b * embedding b

variable {embedding : Embedding} {weight : ℚ}

theorem Within.deposit (h : Within coordinateSign embedding) (tok : Str) (hw : 0 ≤ weight) :
    Within coordinateSign (deposit embedding tok weight) := by
  rw [deposit_eq]
  exact h.update signs_coordinateSign hw

theorem Deposited.deposit (h : Deposited embedding) (tok : Str) (hw : 0 ≤ weight) :
    Deposited (deposit embedding tok weight) := by
  obtain ⟨b, hb⟩ := h.far
  refine ⟨Within.deposit h.within tok hw, b, hb.trans ?_⟩
  rw [deposit_eq]
  exact Orthant.sign_mul_le_update signs_coordinateSign hw _ _ _

theorem deposited_unigram (h : Within coordinateSign embedding) (tok : Str) :
    Deposited (deposit embedding tok 1) := by
  refine ⟨Within.deposit h tok zero_le_one, Fin.ofNat kSoftDim (fnv1a tok).toNat, ?_⟩
  rw [deposit_eq]
  exact h.le_update signs_coordinateSign

theorem deposited_depositsAt (h : Within coordinateSign embedding) (tokens : List Str) (i : ℕ) :
    Deposited (depositsAt tokens embedding i) := by
  have hunigram := deposited_unigram h (tokens.getD i [])
  unfold depositsAt
  dsimp only
  split_ifs
  · exact (hunigram.deposit _ (by norm_num)).deposit _ (by norm_num)
  · exact hunigram.deposit _ (by norm_num)
  · exact hunigram.deposit _ (by norm_num)
  · exact hunigram

theorem within_foldl (tokens : List Str) : ∀ (is : List ℕ) {embedding : Embedding},
    Within coordinateSign embedding →
      Within coordinateSign (is.foldl (depositsAt tokens) embedding)
  | [], _, h => h
  | i :: is, _, h => within_foldl tokens is (deposited_depositsAt h tokens i).within

theorem deposited_foldl (tokens : List Str) (is : List ℕ) (hne : is ≠ [])
    (h : Within coordinateSign embedding) :
    Deposited (is.foldl (depositsAt tokens) embedding) := by
  obtain ⟨init, last, rfl⟩ := (List.eq_nil_or_concat' is).resolve_left hne
  rw [List.foldl_append, List.foldl_cons, List.foldl_nil]
  exact deposited_depositsAt (within_foldl tokens init h) tokens last

theorem within_embedding (content : Str) :
    Within coordinateSign (build_soft.embedding content) := by
  unfold build_soft.embedding
  split_ifs
  · exact Orthant.within_zero _
  · exact within_foldl _ _ (Orthant.within_zero _)

theorem deposited_embedding {content : Str}
    (h : ∃ cp ∈ decode_codepoints content, SoftTokens.isBlank cp = false) :
    Deposited (build_soft.embedding content) := by
  have htokens := List.length_pos_of_ne_nil (SoftTokens.ofContent_ne_nil h)
  unfold build_soft.embedding
  split_ifs with hempty
  · rw [List.isEmpty_iff.1 hempty] at h
    obtain ⟨cp, hcp, -⟩ := h
    exact absurd hcp List.not_mem_nil
  · refine deposited_foldl _ _ (fun hnil => ?_) (Orthant.within_zero _)
    have hlength := congrArg List.length hnil
    rw [List.length_range, List.length_nil] at hlength
    omega

/-- The embedding of a content that is not blank has a norm of at least one, so it is like itself,
and no two contents are unlike each other. -/
theorem soft_embeddings_agree :
    (∀ content, (∃ cp ∈ decode_codepoints content, SoftTokens.isBlank cp = false) →
        1 ≤ build_soft.norm content ∧ 0 < soft_similarity content content)
      ∧ ∀ content other, 0 ≤ soft_similarity content other := by
  refine ⟨fun content h => ?_, fun content other => ?_⟩
  · obtain ⟨b, hb⟩ := (deposited_embedding h).far
    have hnorm : 1 ≤ build_soft.norm content := Orthant.one_le_dot_self signs_coordinateSign hb
    exact ⟨hnorm, lt_of_lt_of_le zero_lt_one hnorm⟩
  · exact (within_embedding content).dot_nonneg (within_embedding other) signs_coordinateSign

end Praxis
