import Mathlib
import Unisock.Lib.Observed

/-! Machines on a network that delays, reorders and loses what they send, but makes up nothing and
delivers nothing twice. -/

namespace Machine

variable {π σ ι ε : Type*}

/-- The machines, and what has been sent and not arrived yet. -/
structure Network (π σ ε : Type*) where
  parties : π → σ
  inFlight : Multiset ε

/-- One of the machines makes a step, or something is lost. -/
inductive NetworkInput (π ι ε : Type*)
  | party (p : π) (i : ι)
  | lose (e : ε)

/-- What happens on the network. -/
inductive Transit (π ε : Type*)
  | sent (p : π) (e : ε)
  | taken (p : π) (e : ε)
  | lost (e : ε)

namespace Transit

def sent? : Transit π ε → Option ε
  | sent _ e => some e
  | _ => none

def taken? : Transit π ε → Option ε
  | taken _ e => some e
  | _ => none

def takenBy [DecidableEq π] (p : π) : Transit π ε → Option ε
  | taken q e => if q = p then some e else none
  | _ => none

def lost? : Transit π ε → Option ε
  | lost e => some e
  | _ => none

end Transit

section Networked

variable (step : σ → ι → Option σ) (sends takes : σ → ι → List ε)

/-- A machine can take only what is on its way. -/
def networked [DecidableEq π] [DecidableEq ε] (n : Network π σ ε) :
    NetworkInput π ι ε → Option (Network π σ ε)
  | .party p i =>
    if (takes (n.parties p) i : Multiset ε) ≤ n.inFlight then
      (step (n.parties p) i).map fun t =>
        { parties := Function.update n.parties p t
          inFlight := n.inFlight - takes (n.parties p) i + sends (n.parties p) i }
    else none
  | .lose e => if e ∈ n.inFlight then some { n with inFlight := n.inFlight.erase e } else none

def transits (n : Network π σ ε) : NetworkInput π ι ε → List (Transit π ε)
  | .party p i =>
    (takes (n.parties p) i).map (.taken p) ++ (sends (n.parties p) i).map (.sent p)
  | .lose e => [.lost e]

/-- Each machine gets inputs that are admitted for it. -/
def Network.ok (ok : σ → ι → Prop) (n : Network π σ ε) : NetworkInput π ι ε → Prop
  | .party p i => ok (n.parties p) i
  | .lose _ => True

variable {step sends takes} {ok : σ → ι → Prop} {n m : Network π σ ε} {seen : List (Transit π ε)}
  {p q : π} {i : ι}

theorem Network.ok_of_forall (hok : ∀ s i, ok s i) (n : Network π σ ε) (i : NetworkInput π ι ε) :
    Network.ok ok n i := by
  cases i with
  | party p i => exact hok _ _
  | lose e => trivial

/-! ### What a step shows -/

theorem sent_party (n : Network π σ ε) :
    (transits sends takes n (.party p i)).filterMap Transit.sent? = sends (n.parties p) i := by
  simp [transits, Transit.sent?, Function.comp_def]

theorem taken_party (n : Network π σ ε) :
    (transits sends takes n (.party p i)).filterMap Transit.taken? = takes (n.parties p) i := by
  simp [transits, Transit.taken?, Function.comp_def]

theorem lost_party (n : Network π σ ε) :
    (transits sends takes n (.party p i)).filterMap Transit.lost? = [] := by
  simp [transits, Transit.lost?, Function.comp_def]

variable [DecidableEq π]

theorem takenBy_party (n : Network π σ ε) :
    (transits sends takes n (.party p i)).filterMap (Transit.takenBy q) =
      if p = q then takes (n.parties p) i else [] := by
  by_cases hp : p = q <;> simp [transits, Transit.takenBy, Function.comp_def, hp]

/-- What has arrived has been taken by one of the machines. -/
theorem sum_takenBy [Fintype π] (seen : List (Transit π ε)) :
    ∑ p, (seen.filterMap (Transit.takenBy p) : Multiset ε) = seen.filterMap Transit.taken? := by
  induction seen with
  | nil => simp
  | cons transit seen ih =>
    cases transit with
    | sent p e | lost e => exact ih
    | taken p e =>
      have hfirst : ∀ q, ((Transit.taken p e :: seen).filterMap (Transit.takenBy q) : Multiset ε) =
          (if p = q then {e} else 0) + seen.filterMap (Transit.takenBy q) := by
        intro q
        by_cases hq : p = q <;> simp [Transit.takenBy, hq]
      rw [Finset.sum_congr rfl fun q _ => hfirst q, Finset.sum_add_distrib, ih,
        Finset.sum_ite_eq, if_pos (Finset.mem_univ p)]
      rfl

/-! ### Runs -/

variable [DecidableEq ε]

/-- Each machine makes a run of its own. -/
theorem Seen.party
    (h : Seen (networked step sends takes) (Network.ok ok) (transits sends takes) n seen m) (p : π) :
    Seen step ok takes (n.parties p) (seen.filterMap (Transit.takenBy p)) (m.parties p) := by
  induction h with
  | refl => exact .refl
  | @tail seen u v i _ hok hs ih =>
    rw [List.filterMap_append]
    cases i with
    | lose e =>
      obtain ⟨-, hs⟩ := Option.ite_none_right_eq_some.mp hs
      obtain rfl := Option.some.inj hs
      have hnone : (transits sends takes u (.lose e)).filterMap (Transit.takenBy p) = [] := rfl
      rwa [hnone, List.append_nil]
    | party q i =>
      obtain ⟨-, hs⟩ := Option.ite_none_right_eq_some.mp hs
      obtain ⟨t, ht, rfl⟩ := Option.map_eq_some_iff.mp hs
      rw [takenBy_party]
      by_cases hq : q = p
      · subst hq
        simpa using ih.tail hok ht
      · simpa [hq, Ne.symm hq] using ih

/-- What has been sent has arrived, is lost, or is on its way. -/
theorem Seen.conserved
    (h : Seen (networked step sends takes) (Network.ok ok) (transits sends takes) n seen m) :
    n.inFlight + seen.filterMap Transit.sent? =
      seen.filterMap Transit.taken? + seen.filterMap Transit.lost? + m.inFlight := by
  induction h with
  | refl => simp
  | @tail seen u v i _ hok hs ih =>
    simp only [List.filterMap_append, ← Multiset.coe_add]
    cases i with
    | lose e =>
      obtain ⟨he, hs⟩ := Option.ite_none_right_eq_some.mp hs
      obtain rfl := Option.some.inj hs
      have hflight : u.inFlight = ([e] : List ε) + u.inFlight.erase e := (Multiset.cons_erase he).symm
      have hsent : (transits sends takes u (.lose e)).filterMap Transit.sent? = [] := rfl
      have htaken : (transits sends takes u (.lose e)).filterMap Transit.taken? = [] := rfl
      have hlost : (transits sends takes u (.lose e)).filterMap Transit.lost? = [e] := rfl
      rw [hsent, htaken, hlost, ← add_assoc, ih, Multiset.coe_nil, add_zero, add_zero]
      conv_lhs => rw [hflight]
      ac_rfl
    | party q i =>
      obtain ⟨hle, hs⟩ := Option.ite_none_right_eq_some.mp hs
      obtain ⟨t, ht, rfl⟩ := Option.map_eq_some_iff.mp hs
      have hflight : u.inFlight = (takes (u.parties q) i : Multiset ε) +
          (u.inFlight - takes (u.parties q) i) := (add_tsub_cancel_of_le hle).symm
      rw [sent_party, taken_party, lost_party, ← add_assoc, ih, Multiset.coe_nil, add_zero]
      show _ = _ + _ + _ + (u.inFlight - takes (u.parties q) i + sends (u.parties q) i)
      conv_lhs => rw [hflight]
      ac_rfl

end Networked

end Machine
