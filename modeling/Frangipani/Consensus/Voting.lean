/-
Voting in ballots.

Acceptors vote for values in ballots, and a value is chosen in a ballot when a
quorum has voted for it there.  An acceptor may promise not to vote below a ballot
any more.  What can still be chosen in a ballot only shrinks: every vote and every
promise keeps this, so a ballot that proposes the only value that can still be
chosen below it stays safe.

Two results carry a consensus protocol.  A ballot may propose a value when a
quorum has promised it and the value is that of the largest ballot in which a
member of the quorum has voted.  And when every vote is for the proposal of its
ballot and every proposal is safe, at most one value is chosen.

The quorums are a parameter.  All that is asked of them is that any two meet.
-/
import Mathlib.Order.Lattice

namespace Frangipani
namespace Consensus

/-- `promised a b` says that `a` casts no further vote below `b`. -/
structure Votes (α β ν : Type) where
  vote : α → β → Option ν
  promised : α → β → Prop

namespace Votes

variable {α β ν : Type} [LinearOrder β] (Quorum : (α → Prop) → Prop)

def Chosen (S : Votes α β ν) (b : β) (v : ν) : Prop :=
  ∃ Q, Quorum Q ∧ ∀ a, Q a → S.vote a b = some v

/-- A quorum has voted for the value in the ballot or may still do so. -/
def Choosable (S : Votes α β ν) (b : β) (v : ν) : Prop :=
  ∃ Q, Quorum Q ∧ ∀ a, Q a → S.vote a b = some v ∨
    (S.vote a b = none ∧ ∀ c, b < c → ¬ S.promised a c)

/-- No other value can still be chosen in a smaller ballot. -/
def Safe (S : Votes α β ν) (b : β) (v : ν) : Prop :=
  ∀ c, c < b → ∀ u, S.Choosable Quorum c u → u = v

/-- Votes and promises are kept, and new votes break no promise. -/
structure Extends (S T : Votes α β ν) : Prop where
  vote : ∀ a b v, S.vote a b = some v → T.vote a b = some v
  promised : ∀ a b, S.promised a b → T.promised a b
  new : ∀ a b v, T.vote a b = some v → S.vote a b = none → ∀ c, b < c → ¬ S.promised a c

variable {Quorum} {S T : Votes α β ν}

theorem Extends.of_promised (hvote : T.vote = S.vote)
    (hpromised : ∀ a b, S.promised a b → T.promised a b) : S.Extends T where
  vote := fun _ _ _ h => hvote ▸ h
  promised := hpromised
  new := by
    intro a b v hv hnone
    rw [hvote, hnone] at hv
    cases hv

theorem Chosen.choosable {b : β} {v : ν} (h : S.Chosen Quorum b v) :
    S.Choosable Quorum b v := by
  obtain ⟨Q, hQ, hvote⟩ := h
  exact ⟨Q, hQ, fun a ha => Or.inl (hvote a ha)⟩

theorem Chosen.extends (hST : S.Extends T) {b : β} {v : ν} (h : S.Chosen Quorum b v) :
    T.Chosen Quorum b v := by
  obtain ⟨Q, hQ, hvote⟩ := h
  exact ⟨Q, hQ, fun a ha => hST.vote a b v (hvote a ha)⟩

theorem Extends.vote_of_promised (hST : S.Extends T) {a : α} {b c : β} {v : ν}
    (hp : S.promised a c) (hbc : b < c) (hv : T.vote a b = some v) : S.vote a b = some v := by
  cases hold : S.vote a b with
  | none => exact absurd hp (hST.new a b v hv hold c hbc)
  | some u => rw [← hv, hST.vote a b u hold]

theorem Choosable.of_extends (hST : S.Extends T) {b : β} {v : ν} (h : T.Choosable Quorum b v) :
    S.Choosable Quorum b v := by
  obtain ⟨Q, hQ, hmember⟩ := h
  refine ⟨Q, hQ, fun a ha => ?_⟩
  rcases hmember a ha with hvote | ⟨hnone, hfree⟩
  · cases hold : S.vote a b with
    | none => exact Or.inr ⟨rfl, hST.new a b v hvote hold⟩
    | some u =>
      rw [hST.vote a b u hold] at hvote
      exact Or.inl hvote
  · refine Or.inr ⟨?_, fun c hc hp => hfree c hc (hST.promised a c hp)⟩
    cases hold : S.vote a b with
    | none => rfl
    | some u =>
      rw [hST.vote a b u hold] at hnone
      cases hnone

theorem Safe.extends (hST : S.Extends T) {b : β} {v : ν} (h : S.Safe Quorum b v) :
    T.Safe Quorum b v :=
  fun c hc u hu => h c hc u (hu.of_extends hST)

section
variable (hmeet : ∀ Q R, Quorum Q → Quorum R → ∃ a, Q a ∧ R a)
variable {proposal : β → Option ν}
variable (hvote : ∀ a b v, S.vote a b = some v → proposal b = some v)
variable (hsafe : ∀ b v, proposal b = some v → S.Safe Quorum b v)
include hmeet hvote hsafe

theorem Chosen.eq_of_lt {b c : β} {v u : ν} (hb : S.Chosen Quorum b v) (hc : S.Chosen Quorum c u)
    (hbc : b < c) : v = u := by
  obtain ⟨Q, hQ, hvotes⟩ := hc
  obtain ⟨a, ha, _⟩ := hmeet Q Q hQ hQ
  exact hsafe c u (hvote a c u (hvotes a ha)) b hbc v hb.choosable

theorem Chosen.agree {b c : β} {v u : ν} (hb : S.Chosen Quorum b v) (hc : S.Chosen Quorum c u) :
    v = u := by
  rcases lt_trichotomy b c with hlt | heq | hgt
  · exact hb.eq_of_lt hmeet hvote hsafe hc hlt
  · subst heq
    obtain ⟨Q, hQ, hQvote⟩ := hb
    obtain ⟨R, hR, hRvote⟩ := hc
    obtain ⟨a, haQ, haR⟩ := hmeet Q R hQ hR
    exact Option.some.inj ((hQvote a haQ).symm.trans (hRvote a haR))
  · exact (hc.eq_of_lt hmeet hvote hsafe hb hgt).symm

/-- The value to propose.  The members of a quorum have promised the ballot, no
vote of theirs below it is above `pick`, and the value is the proposal there. -/
theorem safe_of_promises {Q : α → Prop} (hQ : Quorum Q) {b : β} {v : ν} {pick : Option β}
    (hpromised : ∀ a, Q a → S.promised a b)
    (hbelow : ∀ a, Q a → ∀ c u, c < b → S.vote a c = some u → ∃ p, pick = some p ∧ c ≤ p)
    (hpick : ∀ p, pick = some p → proposal p = some v) : S.Safe Quorum b v := by
  intro c hc u hu
  obtain ⟨R, hR, hmember⟩ := hu
  obtain ⟨a, haQ, haR⟩ := hmeet Q R hQ hR
  -- The common member has promised `b`, so it has voted in `c` already.
  have hvoted : S.vote a c = some u := by
    rcases hmember a haR with hv | ⟨_, hfree⟩
    · exact hv
    · exact absurd (hpromised a haQ) (hfree b hc)
  obtain ⟨p, hp, hcp⟩ := hbelow a haQ c u hc hvoted
  rcases lt_or_eq_of_le hcp with hlt | heq
  · exact hsafe p v (hpick p hp) c hlt u ⟨R, hR, hmember⟩
  · subst heq
    exact Option.some.inj ((hvote a c u hvoted).symm.trans (hpick c hp))

end

end Votes
end Consensus
end Frangipani
