import Mathlib

/-! # Quorum certificates

A certificate for a statement is a set of at least `q` distinct voters that each
vouch for it.  When two thresholds together exceed the number of voters plus the
number of faulty ones, any two certificates share a correct voter; this is the
intersection step of every Byzantine agreement argument. -/
set_option autoImplicit false

namespace SimpleChain.Quorum

variable {α : Type} [Fintype α] [DecidableEq α]

/-- At least `q` distinct voters, each satisfying `voted`. -/
def Certified (q : Nat) (voted : α → Prop) : Prop :=
  ∃ voters : Finset α, q ≤ voters.card ∧ ∀ j ∈ voters, voted j

omit [Fintype α] [DecidableEq α] in
theorem Certified.mono {q : Nat} {voted voted' : α → Prop} (weaker : ∀ j, voted j → voted' j)
    (cert : Certified q voted) : Certified q voted' := by
  obtain ⟨voters, enough, all⟩ := cert
  exact ⟨voters, enough, fun j member => weaker j (all j member)⟩

/-- Two sets larger together than all voters and the faulty ones share a correct voter. -/
theorem exists_correct_mem_inter {A B faulty : Finset α} {qA qB : Nat} (hA : qA ≤ A.card)
    (hB : qB ≤ B.card) (exceeds : Fintype.card α + faulty.card < qA + qB) :
    ∃ j ∈ A, j ∈ B ∧ j ∉ faulty := by
  -- the correct members of `A` alone already overlap `B`
  have correct : A.card - faulty.card ≤ (A \ faulty).card := Finset.le_card_sdiff faulty A
  have bounded : B.card ≤ Fintype.card α := Finset.card_le_univ B
  have overlap : ((A \ faulty) ∩ B).Nonempty :=
    Finset.inter_nonempty_of_card_lt_card_add_card (Finset.subset_univ _) (Finset.subset_univ _)
      (by rw [Finset.card_univ]; omega)
  obtain ⟨j, member⟩ := overlap
  rw [Finset.mem_inter, Finset.mem_sdiff] at member
  exact ⟨j, member.1.1, member.2, member.1.2⟩

theorem Certified.exists_correct_common {q q' : Nat} {voted voted' : α → Prop} {faulty : Finset α}
    (exceeds : Fintype.card α + faulty.card < q + q') (cert : Certified q voted)
    (cert' : Certified q' voted') : ∃ j, j ∉ faulty ∧ voted j ∧ voted' j := by
  obtain ⟨A, enoughA, allA⟩ := cert
  obtain ⟨B, enoughB, allB⟩ := cert'
  obtain ⟨j, inA, inB, correct⟩ := exists_correct_mem_inter enoughA enoughB exceeds
  exact ⟨j, correct, allA j inA, allB j inB⟩

end SimpleChain.Quorum
