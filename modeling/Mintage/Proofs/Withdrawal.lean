import Mintage.Proofs.Contract.Members
import Mintage.Proofs.Settings.Shares
import Mintage.Proofs.Solidity.OneLine

/-! The function `withdraw` pays out the whole balance in the planned shares. -/
namespace Mintage

open Solidity

namespace Share

/-- A share of a balance, rounded down. -/
def rounded (balance : Nat) (share : Share) : Nat := balance * share.percentage / 100

/-- The ether that a share receives of a balance, of which `left` is still there. -/
def due (share : Share) (isLast : Bool) (balance left : Nat) : Nat :=
  if share.percentage = 100 then balance
  else if isLast then left
  else share.rounded balance

section

variable {scope : Scope} {balance : Nat} {store : Store}

theorem eval_currentBalance {locals : Locals} (absent : locals.lookup "this" = none) :
    currentBalance.eval scope locals store = some (.number store.balance, store) := by
  simp [currentBalance, thisContract, Expr.eval, Expr.apply, Expr.evalAll, Scope.apply,
    Scope.conversions, Value.member?, Scope.read, Scope.named, absent,
    show Text.words "this" = ["this"] by decide]

theorem eval_amount (share : Share) (isLast : Bool) (bound : 100 * balance < wordBound)
    (part : share.percentage ≤ 100) :
    (share.amount isLast).eval scope [("balance", .number balance)] store =
      some (.number (share.due isLast balance store.balance), store) := by
  have read : scope.read [("balance", .number balance)] "balance" store =
      some (.number balance) := by
    simp [Scope.read, Scope.named, show Text.words "balance" = ["balance"] by decide]
  have product : balance * share.percentage < wordBound :=
    calc balance * share.percentage ≤ balance * 100 := Nat.mul_le_mul_left _ part
      _ = 100 * balance := Nat.mul_comm _ _
      _ < wordBound := bound
  unfold amount due rounded
  split
  · simp [Expr.eval, read]
  split
  · exact eval_currentBalance rfl
  · simp [Expr.eval, read, Expr.nat, arithmetic, checked, product]

/-- A share is sent if the contract has the ether. -/
theorem exec_send (scope : Scope) (share : Share) (isLast : Bool) (owner : Expr)
    (bound : 100 * balance < wordBound) (part : share.percentage ≤ 100) {amount : Nat}
    (due : share.due isLast balance store.balance = amount) (funded : amount ≤ store.balance) :
    (share.send owner isLast).exec scope [("balance", .number balance)] store =
      some (.next [("balance", .number balance)], store.pay (share.account owner) amount) := by
  simp [send, Stmt.exec, Expr.method, Expr.apply, Expr.eval, Expr.evalAll,
    eval_amount share isLast bound part, due, Scope.applyMember, Store.send, funded]

/-- The payments to shares that are rounded down. -/
def payments (owner : Expr) (balance : Nat) (shares : List Share) : List (Expr × Nat) :=
  shares.map fun share => (share.account owner, share.rounded balance)

/-- What the shares before the last one receive is there, and the last one empties the contract. -/
theorem exec_sendAll (scope : Scope) (owner : Expr) (bound : 100 * balance < wordBound)
    (others : List Share) (last : Share)
    (positive : ∀ share ∈ others ++ [last], 0 < share.percentage) {total : Nat}
    (sum : ((others ++ [last]).map (·.percentage)).sum = total) (part : total ≤ 100)
    (enough : balance * total ≤ 100 * store.balance)
    (whole : total = 100 → store.balance = balance) :
    (others.map (rounded balance)).sum ≤ store.balance ∧
      Stmt.execAll scope (sendAll owner (others ++ [last])) [("balance", .number balance)] store =
        some (.next [("balance", .number balance)], { store with
          balance := 0
          sent := store.sent ++ payments owner balance others ++
            [(last.account owner, store.balance - (others.map (rounded balance)).sum)] }) := by
  induction others generalizing store total with
  | nil =>
    have alone : last.percentage = total := by simpa using sum
    have all : last.due true balance store.balance = store.balance := by
      unfold due
      split
      · rename_i everything
        exact (whole (alone ▸ everything)).symm
      · rfl
    have run := exec_send scope last true owner bound (alone ▸ part) all (Nat.le_refl _)
    refine ⟨Nat.zero_le _, ?_⟩
    simp [sendAll, Stmt.execAll, run, Store.pay, payments]
  | cons share others ih =>
    have here := positive share (by simp)
    have later := positive last (by simp)
    simp only [List.cons_append, List.map_cons, List.sum_cons, List.map_append, List.map_nil,
      List.sum_append, List.sum_nil] at sum
    have notAll : share.percentage ≠ 100 := by omega
    have due : share.due (others ++ [last]).isEmpty balance store.balance =
        share.rounded balance := by
      simp [due, notAll]
    obtain ⟨rest, rfl⟩ : ∃ rest, total = share.percentage + rest := ⟨_, sum.symm⟩
    have product : balance * (share.percentage + rest) =
        balance * share.percentage + balance * rest :=
      Nat.mul_add _ _ _
    -- What is rounded down is never more than the exact part, so enough is left for the others.
    have down : 100 * share.rounded balance ≤ balance * share.percentage := Nat.mul_div_le _ _
    have funded : share.rounded balance ≤ store.balance := by omega
    have run := exec_send scope share (others ++ [last]).isEmpty owner bound (by omega) due funded
    have restSum : ((others ++ [last]).map (·.percentage)).sum = rest := by
      simp only [List.map_append, List.map_cons, List.map_nil, List.sum_append, List.sum_cons,
        List.sum_nil]
      omega
    have restEnough : balance * rest ≤
        100 * (store.pay (share.account owner) (share.rounded balance)).balance := by
      simp only [Store.pay]
      omega
    obtain ⟨left, runs⟩ := ih (fun share mem => positive share (List.mem_cons_of_mem _ mem))
      restSum (by omega) restEnough (by omega)
    refine ⟨?_, ?_⟩
    · simp only [Store.pay] at left
      simp only [List.map_cons, List.sum_cons]
      omega
    · simp only [List.cons_append, sendAll, Stmt.execAll, run, runs]
      simp [payments, Store.pay, Nat.sub_sub]

/-- What rounding takes from the shares is less than one for each of them. -/
theorem sum_rounded (balance : Nat) (shares : List Share) :
    100 * (shares.map (rounded balance)).sum ≤ balance * (shares.map (·.percentage)).sum ∧
      balance * (shares.map (·.percentage)).sum ≤
        100 * (shares.map (rounded balance)).sum + 99 * shares.length := by
  induction shares with
  | nil => simp
  | cons share shares ih =>
    have down : 100 * share.rounded balance ≤ balance * share.percentage := Nat.mul_div_le _ _
    have near : balance * share.percentage < 100 * share.rounded balance + 100 :=
      Nat.lt_mul_div_succ _ (by decide)
    simp only [List.map_cons, List.sum_cons, List.length_cons, Nat.mul_add]
    omega

/-- The last share takes what the others leave: its own part and all that rounding took. -/
theorem rest_bounds {others : List Share} {last : Share}
    (sum : ((others ++ [last]).map (·.percentage)).sum = 100) (balance : Nat) :
    last.rounded balance ≤ balance - (others.map (rounded balance)).sum ∧
      balance - (others.map (rounded balance)).sum <
        last.rounded balance + (others ++ [last]).length := by
  obtain ⟨below, above⟩ := sum_rounded balance others
  have down : 100 * last.rounded balance ≤ balance * last.percentage := Nat.mul_div_le _ _
  have near : balance * last.percentage < 100 * last.rounded balance + 100 :=
    Nat.lt_mul_div_succ _ (by decide)
  have whole : balance * (others.map (·.percentage)).sum + balance * last.percentage =
      100 * balance := by
    rw [← Nat.mul_add, ← Nat.mul_comm balance]
    simpa using congrArg (balance * ·) sum
  rw [List.length_append, List.length_singleton]
  omega

end

end Share

namespace Solidity

theorem page_text (s : String) : page (.text s) = s := by
  simp [page, Layout.Doc.render, Layout.put]

/-- A text of words that is taken for a word is printed as it is. -/
theorem print_ofWord (s : String) :
    (Expr.ofWord (Text.spaced (Text.words s))).print = Text.spaced (Text.words s) := by
  rw [Expr.print, Expr.doc_ofWord, Text.trim_spaced_words, page_text]

end Solidity

namespace Settings

variable {s : Settings}

/-- The function `withdraw` of a contract. -/
theorem withdraw_function? (earns : s.earns = true) :
    s.plan.contract.function? "withdraw" =
      some ⟨"withdraw", [], ["public", "nonReentrant"], none, s.plan.withdrawBody⟩ := by
  have earnsToo : s.plan.earns = true := by rw [earns_plan, earns]
  have mem : Member.function "withdraw" [] ["public", "nonReentrant"] none s.plan.withdrawBody ∈
      s.plan.contract.body := by
    simp [Plan.contract, Plan.body, Plan.payout, earnsToo]
  exact function?_of_mem mem

theorem exists_last_share (s : Settings) : ∃ others last, s.shares = others ++ [last] := by
  rcases List.eq_nil_or_concat s.shares with none | ⟨others, last, split⟩
  · have sum : (s.shares.map (·.percentage)).sum = 100 := sum_sharesOf 1 100 s.payouts
    rw [none] at sum
    cases sum
  · exact ⟨others, last, by rw [split, List.concat_eq_append]⟩

/-- The constant of a receiver holds the address. -/
theorem constant_of_destination (earns : s.earns = true) {number percentage : Nat}
    {address : String} (mem : ⟨.destination number address, percentage⟩ ∈ s.shares) :
    .fieldWith "address" ["private", "constant"] (payoutName number)
      (.ofWord (Text.spaced (Text.words address))) ∈ s.plan.contract.body := by
  have earnsToo : s.plan.earns = true := by rw [earns_plan, earns]
  have shares : s.plan.shares = s.shares := by simp [plan, earns]
  have here : .fieldWith "address" ["private", "constant"] (payoutName number)
      (.ofWord (Text.spaced (Text.words address))) ∈ s.plan.shares.filterMap Share.constant? := by
    rw [shares]
    exact List.mem_filterMap.2 ⟨_, mem, rfl⟩
  simp [Plan.contract, Plan.body, Plan.payout, earnsToo, here]

/-- The last share takes what the others leave, so nothing is left of the balance. -/
theorem exec_withdrawBody (earns : s.earns = true) {others : List Share} {last : Share}
    (split : s.shares = others ++ [last]) (scope : Scope) {store : Store}
    (bound : 100 * store.balance < wordBound) :
    (others.map (Share.rounded store.balance)).sum ≤ store.balance ∧
      Stmt.execAll scope s.plan.withdrawBody [] store =
        some (.next [("balance", .number store.balance)], { store with
          balance := 0
          sent := store.sent ++ Share.payments s.plan.owner store.balance others ++
            [(last.account s.plan.owner,
              store.balance - (others.map (Share.rounded store.balance)).sum)] }) := by
  have planned : s.plan.shares = others ++ [last] := by simp [plan, earns, split]
  have sum : (s.shares.map (·.percentage)).sum = 100 := sum_sharesOf 1 100 s.payouts
  have positive : ∀ share ∈ s.shares, 0 < share.percentage := fun _ => Share.positive_of_mem
  rw [split] at sum positive
  obtain ⟨enough, sends⟩ := Share.exec_sendAll scope s.plan.owner bound others last positive sum
    (Nat.le_refl _) (Nat.le_of_eq (Nat.mul_comm _ _)) fun _ => rfl
  have first : currentBalance.eval scope [] store = some (.number store.balance, store) :=
    Share.eval_currentBalance rfl
  refine ⟨enough, ?_⟩
  simp only [Plan.withdrawBody, planned, Stmt.execAll, Stmt.declare, Stmt.exec,
    Option.bind_eq_bind, Option.bind_some, first]
  exact sends

/-- Calling `withdraw` sends away the whole balance. Each receiver but the last one gets the
percentage rounded down, and the last one gets what is left, which is less than one for each share
above the percentage. Each destination is one constant of the contract that holds its address. -/
theorem withdraw_pays_out (s : Settings) (earns : s.earns = true) (message : Message)
    (store : Store) (bound : 100 * store.balance < wordBound) :
    ∃ (others : List Share) (last : Share) (amount : Nat),
      s.shares = others ++ [last] ∧
      s.plan.contract.invoke message callDepth "withdraw" [] store =
        some (.unit, { store with
          balance := 0
          sent := store.sent ++
            others.map (fun share =>
              (share.account s.plan.owner, store.balance * share.percentage / 100)) ++
            [(last.account s.plan.owner, amount)] }) ∧
      (others.map fun share => store.balance * share.percentage / 100).sum + amount =
        store.balance ∧
      store.balance * last.percentage / 100 ≤ amount ∧
      amount < store.balance * last.percentage / 100 + s.shares.length ∧
      ∀ number address percentage, ⟨.destination number address, percentage⟩ ∈ s.shares →
        s.plan.contract.declared.count (payoutName number) = 1 ∧
        ∃ value, .fieldWith "address" ["private", "constant"] (payoutName number) value ∈
          s.plan.contract.body ∧ value.print = Text.spaced (Text.words address) := by
  obtain ⟨others, last, split⟩ := s.exists_last_share
  have sum : (s.shares.map (·.percentage)).sum = 100 := sum_sharesOf 1 100 s.payouts
  rw [split] at sum
  obtain ⟨below, above⟩ := Share.rest_bounds sum store.balance
  obtain ⟨enough, run⟩ := exec_withdrawBody earns split
    (s.plan.contract.scope message (s.plan.contract.invoke message 1023)) bound
  refine ⟨others, last, store.balance - (others.map (Share.rounded store.balance)).sum, split,
    ?_, Nat.add_sub_cancel' enough, below, split ▸ above, ?_⟩
  · rw [callDepth, Contract.invoke_of_function? _ (withdraw_function? earns)]
    simp only [Contract.perform, bindArguments, Option.bind_eq_bind, Option.bind_some, run]
    rfl
  · intro number address percentage mem
    have held := constant_of_destination earns mem
    refine ⟨?_, _, held, print_ofWord address⟩
    exact List.count_eq_one_of_mem s.declared_nodup (List.mem_filterMap.2 ⟨_, held, rfl⟩)

/-- A contract that sells its tokens and has two receivers besides the owner. -/
def sampleSplit : Settings where
  __ := blank
  price := some "0.1"
  payouts := [⟨" 0xA1 ", 33⟩, ⟨"0xB2", 0⟩, ⟨"0xC3", 33⟩]

theorem withdraw_sampleSplit :
    sampleSplit.earns = true ∧ 100 * 100 < wordBound ∧
      ∃ amount, sampleSplit.plan.contract.invoke ⟨1, 0, fun _ => .unit⟩ callDepth "withdraw" []
        ⟨100, [], 1, [], fun _ => 0, fun _ => .unit, fun _ _ => .unit, 0⟩ =
          some (.unit, ⟨0, [(.ident "payoutAddress1", 33), (.ident "payoutAddress2", 33),
            (.apply "owner" [], amount)], 1, [], fun _ => 0, fun _ => .unit, fun _ _ => .unit, 0⟩) ∧
        66 + amount = 100 := by
  have earns : sampleSplit.earns = true := by decide +kernel
  obtain ⟨others, last, amount, split, run, total, -⟩ := withdraw_pays_out sampleSplit earns
    ⟨1, 0, fun _ => .unit⟩ ⟨100, [], 1, [], fun _ => 0, fun _ => .unit, fun _ _ => .unit, 0⟩
    (by decide)
  have shares : sampleSplit.shares = [⟨.destination 1 "0xA1", 33⟩, ⟨.destination 2 "0xC3", 33⟩] ++
      [⟨.owner, 34⟩] := by decide +kernel
  obtain ⟨rfl, same⟩ := List.append_inj' (split.symm.trans shares) rfl
  cases same
  exact ⟨earns, by decide, amount, run, total⟩

end Settings
end Mintage
