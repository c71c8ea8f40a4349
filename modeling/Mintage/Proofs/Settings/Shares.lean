import Mathlib.Algebra.Ring.Nat
import Mintage.Settings.Shares

/-! The shares of the proceeds: what the destinations ask for one after the other, cut off where the
running total comes to a hundred percent. -/
namespace Mintage

/-- The shares give away all that is left, the rest to the owner. -/
theorem sum_sharesOf (number left : Nat) (payouts : List Payout) :
    ((sharesOf number left payouts).map (·.percentage)).sum = left := by
  induction payouts generalizing number left with
  | nil => by_cases h : left = 0 <;> simp [sharesOf, h]
  | cons payout payouts ih =>
    simp only [sharesOf]
    split
    · exact ih number left
    · simp only [List.map_cons, List.sum_cons, ih]
      omega

/-- Nobody has a share of nothing. -/
theorem Share.positive_of_mem {share : Share} {number left : Nat} {payouts : List Payout}
    (mem : share ∈ sharesOf number left payouts) : 0 < share.percentage := by
  induction payouts generalizing number left with
  | nil =>
    unfold sharesOf at mem
    split at mem
    · cases mem
    · rw [List.mem_singleton.1 mem]
      exact Nat.pos_of_ne_zero ‹_›
  | cons payout payouts ih =>
    simp only [sharesOf] at mem
    split at mem
    · exact ih mem
    · rcases List.mem_cons.1 mem with rfl | mem
      · exact Nat.pos_of_ne_zero ‹_›
      · exact ih mem

namespace Payout

/-- What the destinations ask for together, in percent. -/
def demand (payouts : List Payout) : Nat :=
  (payouts.map fun payout => payout.percentage.toNat).sum

@[simp] theorem demand_nil : demand [] = 0 := rfl

@[simp] theorem demand_cons (payout : Payout) (payouts : List Payout) :
    demand (payout :: payouts) = payout.percentage.toNat + demand payouts := by
  simp [demand]

/-- What each destination receives: as much as it asks for and those in front of it leave. -/
def grants (whole : Nat) (payouts : List Payout) : List Nat :=
  payouts.mapIdx fun i payout => min payout.percentage.toNat (whole - demand (payouts.take i))

@[simp] theorem grants_nil (whole : Nat) : grants whole [] = [] := rfl

@[simp] theorem grants_cons (whole : Nat) (payout : Payout) (payouts : List Payout) :
    grants whole (payout :: payouts) =
      min payout.percentage.toNat whole ::
        grants (whole - min payout.percentage.toNat whole) payouts := by
  have left (asked : Nat) : whole - (payout.percentage.toNat + asked) =
      whole - min payout.percentage.toNat whole - asked := by omega
  simp [grants, List.mapIdx_cons, left]

theorem getElem?_grants (whole : Nat) (payouts : List Payout) (i : Nat) :
    (grants whole payouts)[i]? = payouts[i]?.map fun payout =>
      min payout.percentage.toNat (whole - demand (payouts.take i)) := by
  simp [grants]

/-- The destinations up to some place receive what they ask for together, if it is there. -/
theorem sum_take_grants (whole : Nat) (payouts : List Payout) (i : Nat) :
    ((grants whole payouts).take i).sum = min whole (demand (payouts.take i)) := by
  induction payouts generalizing whole i with
  | nil => simp
  | cons payout payouts ih =>
    cases i with
    | zero => simp
    | succ i =>
      simp only [grants_cons, List.take_succ_cons, List.sum_cons, demand_cons, ih]
      omega

/-- The destinations that receive something, each with its part. -/
def served (whole : Nat) (payouts : List Payout) : List (Payout × Nat) :=
  (payouts.zip (grants whole payouts)).filter (0 < ·.2)

theorem served_cons (whole : Nat) (payout : Payout) (payouts : List Payout) :
    served whole (payout :: payouts) =
      if min payout.percentage.toNat whole = 0 then served whole payouts
      else (payout, min payout.percentage.toNat whole) ::
        served (whole - min payout.percentage.toNat whole) payouts := by
  unfold served
  rw [grants_cons, List.zip_cons_cons, List.filter_cons]
  split
  · rename_i some
    rw [if_neg (Nat.pos_iff_ne_zero.1 (of_decide_eq_true some))]
  · rename_i none
    have zero : min payout.percentage.toNat whole = 0 :=
      Nat.eq_zero_of_not_pos fun some => none (decide_eq_true some)
    rw [if_pos zero, zero, Nat.sub_zero]

end Payout

open Payout

/-- The share of a destination that is served. -/
def Share.ofServed (number : Nat) (destination : Payout × Nat) : Share :=
  ⟨.destination number (Text.trim destination.1.address), destination.2⟩

/-- The share of the owner in what is left. -/
def Share.rest (left : Nat) : List Share := if 0 < left then [⟨.owner, left⟩] else []

/-- The shares are the destinations that are served, numbered one after the other, and then the
owner. -/
theorem sharesOf_eq (number left : Nat) (payouts : List Payout) :
    sharesOf number left payouts =
      (served left payouts).mapIdx (fun k => Share.ofServed (number + k)) ++
        Share.rest (left - demand payouts) := by
  induction payouts generalizing number left with
  | nil =>
    by_cases none : left = 0 <;>
      simp [sharesOf, served, Share.rest, none, Nat.pos_iff_ne_zero]
  | cons payout payouts ih =>
    have left_sub : left - demand (payout :: payouts) =
        left - min payout.percentage.toNat left - demand payouts := by
      rw [demand_cons]
      omega
    rw [sharesOf, served_cons, left_sub]
    split
    · rename_i nothing
      rw [nothing, Nat.sub_zero, ih]
    · rw [ih, List.mapIdx_cons, List.cons_append]
      simp [Share.ofServed, Nat.add_assoc, Nat.add_comm 1]

/-- A difference of words, if it is a word. -/
def minus? (a b : UInt32) : Option UInt32 := if b ≤ a then some (a - b) else none

/-- A sum of words, if it is a word. -/
def plus? (a b : UInt32) : Option UInt32 :=
  if a.toNat + b.toNat < UInt32.size then some (a + b) else none

/-- The destinations are served one after the other, where `given` of a hundred percent is given
away in `shares`: in words, with a check of each subtraction and addition. -/
def serve (given : UInt32) (shares : List Share) : List Payout → Option (List Share)
  | [] =>
    if given < 100 then do
      let rest ← minus? 100 given
      some (shares ++ [⟨.owner, rest.toNat⟩])
    else some shares
  | payout :: payouts => do
    let percentage := min payout.percentage (← minus? 100 given)
    if percentage = 0 then serve given shares payouts
    else
      serve (← plus? given percentage)
        (shares ++ [Share.ofServed (shares.length + 1) (payout, percentage.toNat)]) payouts

theorem minus?_of_le {a b : UInt32} (le : b.toNat ≤ a.toNat) :
    ∃ c, minus? a b = some c ∧ c.toNat = a.toNat - b.toNat := by
  have words : b ≤ a := UInt32.le_iff_toNat_le.2 le
  exact ⟨a - b, if_pos words, UInt32.toNat_sub_of_le a b words⟩

theorem plus?_of_lt {a b : UInt32} (lt : a.toNat + b.toNat < UInt32.size) :
    ∃ c, plus? a b = some c ∧ c.toNat = a.toNat + b.toNat :=
  ⟨a + b, if_pos lt, by rw [UInt32.toNat_add, Nat.mod_eq_of_lt lt]⟩

theorem toNat_min (a b : UInt32) : (min a b).toNat = min a.toNat b.toNat := by
  have smaller : min a b = if a ≤ b then a else b := rfl
  rw [smaller, Nat.min_def, apply_ite UInt32.toNat]
  exact if_congr UInt32.le_iff_toNat_le rfl rfl

/-- In words, no subtraction and no addition fails while the running total is at most a hundred. The
induction is on the destinations, with the total kept in bounds. -/
theorem serve_eq {given : UInt32} (part : given.toNat ≤ 100) (shares : List Share)
    (payouts : List Payout) :
    serve given shares payouts =
      some (shares ++ sharesOf (shares.length + 1) (100 - given.toNat) payouts) := by
  obtain ⟨left, leftWord, leftNat⟩ := minus?_of_le (a := 100) part
  have whole : (100 : UInt32).toNat = 100 := rfl
  induction payouts generalizing given shares left with
  | nil =>
    simp only [serve, sharesOf, leftWord, UInt32.lt_iff_toNat_lt]
    split
    · rename_i some
      rw [if_neg (by omega)]
      simp [leftNat, whole]
    · rename_i none
      rw [if_pos (by omega), List.append_nil]
  | cons payout payouts ih =>
    have percentage := toNat_min payout.percentage left
    rw [leftNat, whole] at percentage
    have zero : min payout.percentage left = 0 ↔
        min payout.percentage.toNat (100 - given.toNat) = 0 := by
      rw [← percentage, ← UInt32.toNat_inj]
      rfl
    obtain ⟨next, nextWord, nextNat⟩ := plus?_of_lt (a := given) (b := min payout.percentage left)
      (by rw [percentage, UInt32.size]; omega)
    obtain ⟨later, laterWord, laterNat⟩ := minus?_of_le (a := 100) (b := next)
      (by rw [nextNat, percentage, whole]; omega)
    simp only [serve, sharesOf, leftWord, nextWord, Option.bind_eq_bind, Option.bind_some, zero]
    split
    · exact ih part shares left leftWord leftNat
    · have less : 100 - next.toNat =
          100 - given.toNat - min payout.percentage.toNat (100 - given.toNat) := by
        omega
      rw [ih (by omega) _ later laterWord laterNat, less, List.append_assoc]
      simp [Share.ofServed, percentage]

namespace Settings

/-- The shares of the proceeds are positive and come to a hundred percent, and to find them in words
no subtraction and no addition goes wrong. The destinations up to any place receive together what
they ask for together, cut off at a hundred percent: each receives as much as it asks for and is
left. Those that receive something stand in their order, numbered from one and with their trimmed
addresses, and behind them the owner has what nobody asked for. -/
theorem shares_clamped (s : Settings) :
    serve 0 [] s.payouts = some s.shares ∧
      (∀ share ∈ s.shares, 0 < share.percentage) ∧
      (s.shares.map (·.percentage)).sum = 100 ∧
      (∀ i, ((grants 100 s.payouts).take i).sum = min 100 (demand (s.payouts.take i))) ∧
      (∀ i, (grants 100 s.payouts)[i]? = s.payouts[i]?.map fun payout =>
        min payout.percentage.toNat (100 - ((grants 100 s.payouts).take i).sum)) ∧
      s.shares =
        ((s.payouts.zip (grants 100 s.payouts)).filter (0 < ·.2)).mapIdx (fun k served =>
          ⟨.destination (k + 1) (Text.trim served.1.address), served.2⟩) ++
        if demand s.payouts < 100 then [⟨.owner, 100 - demand s.payouts⟩] else [] := by
  refine ⟨serve_eq (Nat.zero_le _) [] s.payouts, fun share => Share.positive_of_mem,
    sum_sharesOf 1 100 s.payouts, sum_take_grants 100 s.payouts, fun i => ?_, ?_⟩
  · have left : 100 - ((grants 100 s.payouts).take i).sum = 100 - demand (s.payouts.take i) := by
      rw [sum_take_grants]
      omega
    rw [getElem?_grants, left]
  · have shares := sharesOf_eq 1 100 s.payouts
    simp only [Share.rest, Nat.sub_pos_iff_lt, Nat.add_comm 1] at shares
    exact shares

/-- Of four destinations the second asks for nothing and the third for more than there is. -/
def sampleGreedy : Settings where
  __ := blank
  payouts := [⟨" 0xA1 ", 60⟩, ⟨"0xB2", 0⟩, ⟨"0xC3", 4294967295⟩, ⟨"0xD4", 5⟩]

theorem shares_sampleGreedy :
    sampleGreedy.shares = [⟨.destination 1 "0xA1", 60⟩, ⟨.destination 2 "0xC3", 40⟩] ∧
      0 < 40 ∧ grants 100 sampleGreedy.payouts = [60, 0, 40, 0] ∧
      (grants 100 sampleGreedy.payouts)[2]? = some (min 4294967295 (100 - 60)) := by
  obtain ⟨-, positive, -, -, each, shares⟩ := sampleGreedy.shares_clamped
  have found : sampleGreedy.shares =
      [⟨.destination 1 "0xA1", 60⟩, ⟨.destination 2 "0xC3", 40⟩] := by
    rw [shares]
    decide +kernel
  exact ⟨found, positive ⟨.destination 2 "0xC3", 40⟩ (by simp [found]), by decide +kernel, each 2⟩

end Settings

end Mintage
