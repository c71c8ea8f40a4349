import Mintage.Proofs.Minting.Token

/-! A call of the function `mint`: its checks, and then the tokens one by one. -/
namespace Mintage

open Solidity

namespace Plan

variable (p : Plan)

/-- What the function `mint` does behind the checks of the sale. -/
def afterSale : List Stmt := outline [
  .optional (if p.minterPicksIds then none else p.gate.map fun gate => gate.ownsSome p.sender),
  .optional (p.supply.map fun _ => p.supplyCheck),
  .optional (p.price.map p.paymentCheck),
  .all (if p.mintsSeveral then [.loop "uint256 i = 0" "i < count" "i++" p.mintOne]
    else p.mintOne)]

theorem mintBody_eq :
    p.mintBody = p.batchChecks ++
      ((if p.onlyOwnerMints then [] else p.saleChecks p.mintCount) ++ p.afterSale) := rfl

end Plan

namespace Settings

/-- The locals of `mint` when it may mint `n` tokens. -/
structure Ready (s : Settings) (n : Nat) (locals : Locals) : Prop where
  ofMint : locals.OfMint
  counted : s.plan.mintsSeveral = true → locals.lookup "count" = some (.number n)
  limited : ∀ limit, s.plan.batch = some limit → n ≤ limit
  single : s.plan.mintsSeveral = false → n = 1
  ids : s.plan.minterPicksIds = true → s.plan.mintsSeveral = true →
    ∃ ids, locals.lookup "ids" = some (.numbers ids)
  id : s.plan.minterPicksIds = true → s.plan.mintsSeveral = false →
    ∃ id, locals.lookup "id" = some (.number id)

variable {s : Settings} {message : Message} {depth : Nat} {locals : Locals} {store : Store}

theorem ofMint_nil : Locals.OfMint [] := fun _ _ => rfl

theorem ofMint_parameters {values : List Value}
    (bound : bindArguments (outline [.when s.plan.hasParameters Parameter.argument]) values =
      some locals) : locals.OfMint := by
  cases has : s.plan.hasParameters with
  | false =>
    rw [has] at bound
    rw [bindArguments_nil bound]
    exact ofMint_nil
  | true =>
    rw [has] at bound
    have argument : argumentOf Parameter.argument = some ("parameters", "TokenParameters") := by
      decide
    obtain ⟨value, others, rest, -, -, later, rfl⟩ := bindArguments_cons argument bound
    rw [bindArguments_nil later]
    exact ofMint_nil.cons (by decide) value

/-- The arguments of `mint`. -/
theorem bound_arguments {values : List Value}
    (bound : bindArguments s.plan.mintArguments values = some locals) :
    locals.OfMint ∧
      (s.plan.minterPicksIds = true → s.plan.mintsSeveral = true →
        ∃ ids, locals.lookup "ids" = some (.numbers ids)) ∧
      (s.plan.minterPicksIds = true → s.plan.mintsSeveral = false →
        ∃ id, locals.lookup "id" = some (.number id)) ∧
      (s.plan.minterPicksIds = false → s.plan.mintsSeveral = true →
        ∃ n, locals.lookup "count" = some (.number n)) := by
  unfold Plan.mintArguments at bound
  rw [outline_cons] at bound
  cases picks : s.plan.minterPicksIds <;> cases several : s.plan.mintsSeveral <;>
    simp only [picks, several, Part.items, Option.toList_none, Option.toList_some,
      List.nil_append, List.singleton_append] at bound
  · exact ⟨ofMint_parameters bound, by simp, by simp, by simp⟩
  · have argument : argumentOf "uint256 count" = some ("count", "uint256") := by decide
    obtain ⟨value, others, rest, -, typed, later, rfl⟩ := bindArguments_cons argument bound
    obtain ⟨n, rfl⟩ := Value.eq_number_of_hasType typed
    exact ⟨(ofMint_parameters later).cons (by decide) _, by simp, by simp, fun _ _ => ⟨n, rfl⟩⟩
  · have argument : argumentOf "uint256 id" = some ("id", "uint256") := by decide
    obtain ⟨value, others, rest, -, typed, later, rfl⟩ := bindArguments_cons argument bound
    obtain ⟨id, rfl⟩ := Value.eq_number_of_hasType typed
    exact ⟨(ofMint_parameters later).cons (by decide) _, by simp, fun _ _ => ⟨id, rfl⟩, by simp⟩
  · have argument : argumentOf "uint256[] calldata ids" = some ("ids", "uint256[]") := by decide
    obtain ⟨value, others, rest, -, typed, later, rfl⟩ := bindArguments_cons argument bound
    obtain ⟨ids, rfl⟩ := Value.eq_numbers_of_hasType typed
    exact ⟨(ofMint_parameters later).cons (by decide) _, fun _ _ => ⟨ids, rfl⟩, by simp, by simp⟩

theorem constant_mem_minting {name : String} {n : Nat}
    (mem : .constant name n ∈ s.plan.minting) : .constant name n ∈ s.plan.contract.body := by
  simp [Plan.contract, Plan.body, mem]

/-- The limit of a call is checked against the number of tokens, which may be that of the picked
ones. -/
theorem leads_limitCheck {limit n : Nat} (batch : s.plan.batch = some limit)
    (ofMint : locals.OfMint) (counted : locals.lookup "count" = some (.number n)) (text : String) :
    Stmt.Leads (s.scope message depth)
      [.require (.binary (.ident "count") "<=" (.ident "MAX_MULTIMINT")) text] locals store
      fun locals' store' => locals' = locals ∧ store' = store ∧ n ≤ limit := by
  have mem : .constant "MAX_MULTIMINT" limit ∈ s.plan.minting := by simp [Plan.minting, batch]
  have upper : (Expr.ident "MAX_MULTIMINT").eval (s.scope message depth) locals store =
      some (.number limit, store) :=
    eval_constant_of_mem (constant_mem_minting mem) (by decide) (by decide) (ofMint _ (by decide))
  have count : (Expr.ident "count").eval (s.scope message depth) locals store =
      some (.number n, store) := Expr.eval_local (by decide) counted
  have check := Stmt.leads_compare "<=" text (Expr.yields_of_eval count) (Expr.yields_of_eval upper)
  refine check.mono ?_
  rintro locals' store' ⟨same, kept, compared⟩
  exact ⟨same, kept, by simpa [arithmetic] using compared⟩

/-- The number of picked tokens is counted before it is checked. -/
theorem leads_pickedCount {picked : List Nat}
    (all : locals.lookup "ids" = some (.numbers picked)) :
    Stmt.Leads (s.scope message depth)
      [.declare "uint256" "count" ((Expr.ident "ids").member "length")] locals store
      fun locals' store' =>
        locals' = ("count", .number picked.length) :: locals ∧ store' = store := by
  have read : (Expr.ident "ids").eval (s.scope message depth) locals store =
      some (.numbers picked, store) := Expr.eval_local (by decide) all
  refine Stmt.leads_declare fun value store' run => ?_
  rw [Expr.eval, read] at run
  cases run
  exact ⟨rfl, rfl⟩

/-- Behind these checks the number of tokens is known and within the limit. -/
theorem leads_batchChecks {values : List Value}
    (bound : bindArguments s.plan.mintArguments values = some locals) :
    Stmt.Leads (s.scope message depth) s.plan.batchChecks locals store
      fun locals' store' => store' = store ∧ ∃ n, s.Ready n locals' := by
  obtain ⟨ofMint, ids, id, count⟩ := bound_arguments bound
  unfold Plan.batchChecks
  split
  · rename_i none
    have single : s.plan.mintsSeveral = false := by simp [Plan.mintsSeveral, none]
    refine Stmt.leads_nil ⟨rfl, 1, ofMint, ?_, ?_, fun _ => rfl, ?_, id⟩
    · simp [single]
    · simp [none]
    · simp [single]
  · rename_i limit batch
    have several : s.plan.mintsSeveral = true := by simp [Plan.mintsSeveral, batch]
    have limited (n : Nat) (below : n ≤ limit) (limit' : Nat) (same : s.plan.batch = some limit') :
        n ≤ limit' := by
      rw [batch] at same
      cases same
      exact below
    cases picks : s.plan.minterPicksIds with
    | false =>
      obtain ⟨n, counted⟩ := count picks several
      refine (leads_limitCheck batch ofMint counted _).mono
        fun locals' store' ⟨same, kept, below⟩ => ?_
      rw [same]
      refine ⟨kept, n, ofMint, fun _ => counted, limited n below, ?_, ?_, ?_⟩
      · simp [several]
      · simp [picks]
      · simp [picks]
    | true =>
      obtain ⟨picked, all⟩ := ids picks several
      refine (leads_pickedCount all).append fun locals' store' ⟨same, kept⟩ => ?_
      rw [same, kept]
      have ofMint' : Locals.OfMint (("count", .number picked.length) :: locals) :=
        ofMint.cons (by decide) _
      refine (leads_limitCheck batch ofMint' List.lookup_cons_self _).mono
        fun locals'' store'' ⟨same, kept, below⟩ => ?_
      rw [same]
      refine ⟨kept, picked.length, ofMint', fun _ => rfl, limited _ below, ?_,
        fun _ _ => ⟨picked, all⟩, ?_⟩
      · simp [several]
      · simp [several]

theorem saleChecks_quiet {count : Expr} (quiet : count.isQuiet Plan.silentNames) :
    Stmt.allQuiet Plan.silentNames (s.plan.saleChecks count) := by
  have counts : "allowedMintCount" ∈ Plan.silentNames ∧ "updateMintCount" ∈ Plan.silentNames := by
    decide
  unfold Plan.saleChecks Plan.requireSale
  split <;>
    simp [Stmt.allQuiet, Stmt.isQuiet, Stmt.alternativeQuiet, Stmt.require, Expr.apply,
      Plan.saleIsActive, Expr.isQuiet, Expr.allQuiet, sender_quiet, builtins, counts, quiet]

theorem saleChecks_steady (count : Expr) : Stmt.allSteady (s.plan.saleChecks count) := by
  unfold Plan.saleChecks
  split <;> rfl

theorem ownsSome_quiet (gate : Gate) :
    Stmt.allQuiet Plan.silentNames [gate.ownsSome s.plan.sender] := by
  unfold Gate.ownsSome Gate.guarded
  split <;>
    simp [Stmt.allQuiet, Stmt.isQuiet, Stmt.alternativeQuiet, Stmt.require, Expr.apply, Expr.method,
      Gate.token, Expr.nat, Expr.isQuiet, Expr.allQuiet, sender_quiet, builtins]

theorem ownsSome_steady (gate : Gate) (account : Expr) :
    Stmt.allSteady [gate.ownsSome account] := by
  unfold Gate.ownsSome Gate.guarded
  split <;> rfl

theorem Ready.eval_mintCount {n : Nat} (ready : s.Ready n locals) :
    s.plan.mintCount.eval (s.scope message depth) locals store = some (.number n, store) := by
  unfold Plan.mintCount
  split
  · rename_i several
    exact Expr.eval_local (by decide) (ready.counted several)
  · rename_i one
    rw [ready.single (by simpa using one)]
    exact Expr.eval_nat 1

/-- Behind the check there is room for the tokens of this call. -/
theorem leads_supplyCheck {n : Nat} (sound : s.plan.Sound store) (ready : s.Ready n locals) :
    Stmt.Leads (s.scope message (depth + 1))
      (Part.items (.optional (s.plan.supply.map fun _ => s.plan.supplyCheck))) locals store
      fun locals' store' => locals' = locals ∧ store' = store ∧
        ∀ supply, s.plan.supply = some supply → store.tokens.length + n ≤ supply := by
  cases set : s.plan.supply with
  | none => exact Stmt.leads_nil ⟨rfl, rfl, by simp⟩
  | some supply =>
    have mem : .constant "MAX_SUPPLY" supply ∈ s.plan.minting := by simp [Plan.minting, set]
    have upper : (Expr.ident "MAX_SUPPLY").Yields (s.scope message (depth + 1)) locals store
        supply :=
      Expr.yields_of_eval (eval_constant_of_mem (constant_mem_minting mem) (by decide) (by decide)
        (ready.ofMint _ (by decide)))
    have total : Plan.totalSupply.Yields (s.scope message (depth + 1)) locals store
        store.tokens.length := by
      rw [← sound.counted]
      exact Expr.yields_of_eval eval_totalSupply
    have fits : Stmt.Leads (s.scope message (depth + 1)) [s.plan.supplyCheck] locals store
        fun locals' store' => locals' = locals ∧ store' = store ∧
          store.tokens.length + n ≤ supply := by
      unfold Plan.supplyCheck
      cases several : s.plan.mintsSeveral with
      | false =>
        have check := Stmt.leads_compare "<" "Exceeds max supply" total upper
        refine check.mono ?_
        rintro locals' store' ⟨same, kept, compared⟩
        refine ⟨same, kept, ?_⟩
        have single := ready.single several
        simp [arithmetic] at compared
        omega
      | true =>
        have sum := total.binary (Expr.yields_of_eval ready.eval_mintCount)
          fun value (result : arithmetic "+" _ _ = some value) => eq_number_of_checked result
        have check := Stmt.leads_compare "<=" "Exceeds max supply" sum upper
        refine check.mono ?_
        rintro locals' store' ⟨same, kept, compared⟩
        exact ⟨same, kept, by simpa [arithmetic] using compared⟩
    refine fits.mono ?_
    rintro locals' store' ⟨same, kept, below⟩
    refine ⟨same, kept, fun supply' set' => ?_⟩
    cases set'
    exact below

/-- Behind the check the call is paid. -/
theorem leads_paymentCheck {n : Nat} (ready : s.Ready n locals) :
    Stmt.Leads (s.scope message depth)
      (Part.items (.optional (s.plan.price.map s.plan.paymentCheck))) locals store
      fun locals' store' => locals' = locals ∧ store' = store ∧
        ∀ price, s.plan.price = some price → n * price.wei ≤ message.value := by
  cases set : s.plan.price with
  | none => exact Stmt.leads_nil ⟨rfl, rfl, by simp⟩
  | some price =>
    have mem : .constant "PRICE" price.wei ∈ s.plan.minting := by simp [Plan.minting, set]
    have each : (Expr.ident "PRICE").Yields (s.scope message depth) locals store price.wei :=
      Expr.yields_of_eval (eval_constant_of_mem (constant_mem_minting mem) (by decide) (by decide)
        (ready.ofMint _ (by decide)))
    have paid : (Expr.ident "msg.value").Yields (s.scope message depth) locals store
        message.value := by
      refine Expr.yields_of_eval ?_
      simp [Expr.eval, Scope.read, Scope.named, Contract.scope,
        ready.ofMint "msg.value" (by decide),
        show Text.words "msg.value" = ["msg.value"] by decide]
    have covers : Stmt.Leads (s.scope message depth) [s.plan.paymentCheck price] locals store
        fun locals' store' => locals' = locals ∧ store' = store ∧
          n * price.wei ≤ message.value := by
      unfold Plan.paymentCheck
      cases several : s.plan.mintsSeveral with
      | false =>
        refine (Stmt.leads_compare ">=" _ paid each).mono ?_
        rintro locals' store' ⟨same, kept, compared⟩
        refine ⟨same, kept, ?_⟩
        rw [ready.single several, Nat.one_mul]
        simpa [arithmetic] using compared
      | true =>
        have product := each.binary (Expr.yields_of_eval ready.eval_mintCount)
          fun value (result : arithmetic "*" _ _ = some value) => eq_number_of_checked result
        refine (Stmt.leads_compare ">=" _ paid product).mono ?_
        rintro locals' store' ⟨same, kept, compared⟩
        refine ⟨same, kept, ?_⟩
        rw [Nat.mul_comm]
        simpa [arithmetic] using compared
    refine covers.mono ?_
    rintro locals' store' ⟨same, kept, below⟩
    refine ⟨same, kept, fun price' set' => ?_⟩
    cases set'
    exact below

/-- The tokens that were there and so many new ones. -/
def Grown (s : Settings) (before : Store) (n : Nat) (after : Store) : Prop :=
  s.plan.Sound after ∧ ∃ minted : List Nat, after.tokens = minted ++ before.tokens ∧
    minted.length = n

theorem Grown.next {before between after : Store} {n : Nat} (grown : s.Grown before n between)
    (sound : s.plan.Sound after) {id : Nat} (tokens : after.tokens = id :: between.tokens) :
    s.Grown before (n + 1) after := by
  obtain ⟨-, minted, split, length⟩ := grown
  refine ⟨sound, id :: minted, ?_, by rw [List.length_cons, length]⟩
  rw [tokens, split, List.cons_append]

/-- Each round mints one token, and all that is kept true of the tokens stays true. -/
theorem leads_mintOne (sound : s.plan.Sound store) (ofMint : locals.OfMint)
    (several : s.plan.minterPicksIds = true → s.plan.mintsSeveral = true →
      ∃ ids i, locals.lookup "ids" = some (.numbers ids) ∧ locals.lookup "i" = some (.number i))
    (single : s.plan.minterPicksIds = true → s.plan.mintsSeveral = false →
      ∃ id, locals.lookup "id" = some (.number id)) :
    Stmt.Leads (s.scope message (depth + 1)) s.plan.mintOne locals store fun _ store' =>
      s.plan.Sound store' ∧ ∃ id, store'.tokens = id :: store.tokens := by
  unfold Plan.mintOne
  split
  · rename_i picks
    exact leads_mintPicked sound ofMint picks (several picks) (single picks)
  · rename_i serial
    exact leads_mintNext sound ofMint (by simpa using serial)

/-- Round by round a loop mints one more token. -/
theorem leads_tokens {n : Nat} (sound : s.plan.Sound store) (ready : s.Ready n locals) :
    Stmt.Leads (s.scope message (depth + 1))
      (if s.plan.mintsSeveral then [.loop "uint256 i = 0" "i < count" "i++" s.plan.mintOne]
        else s.plan.mintOne) locals store fun _ store' => s.Grown store n store' := by
  have start : s.Grown store 0 store := ⟨sound, [], rfl, rfl⟩
  cases several : s.plan.mintsSeveral with
  | false =>
    rw [if_neg (by decide), ready.single several]
    refine (leads_mintOne sound ready.ofMint (by simp [several]) ready.id).mono ?_
    rintro _ store' ⟨sound', id, tokens⟩
    exact start.next sound' tokens
  | true =>
    rw [if_pos rfl]
    have counted : countedLoop? "uint256 i = 0" "i < count" "i++" = some ("i", "count") := by decide
    refine (Stmt.leads_loop (s.Grown store) counted (ready.counted several) start
      fun k between grown => ?_).mono fun _ _ => And.right
    have picked (picks : s.plan.minterPicksIds = true) (_ : s.plan.mintsSeveral = true) :
        ∃ ids i, List.lookup "ids" (("i", .number k) :: locals) = some (.numbers ids) ∧
          List.lookup "i" (("i", Value.number k) :: locals) = some (.number i) := by
      obtain ⟨ids, all⟩ := ready.ids picks several
      exact ⟨ids, k, all, rfl⟩
    refine Stmt.Leads.mono
      (leads_mintOne grown.1 (ready.ofMint.cons (by decide) _) picked (by simp [several])) ?_
    rintro _ store' ⟨sound', id, tokens⟩
    exact grown.next sound' tokens

/-- What a call of `mint` with so many tokens respects. -/
structure Admitted (s : Settings) (message : Message) (before : Store) (n : Nat) : Prop where
  limited : ∀ limit, s.plan.batch = some limit → n ≤ limit
  single : s.plan.mintsSeveral = false → n = 1
  supplied : ∀ supply, s.plan.supply = some supply → before.tokens.length + n ≤ supply
  paid : ∀ price, s.plan.price = some price → n * price.wei ≤ message.value

/-- Whoever may mint at all: only the owner, or everybody while the sale is on. -/
theorem leads_sale :
    Stmt.Leads (s.scope message depth)
      (if s.plan.onlyOwnerMints then [] else s.plan.saleChecks s.plan.mintCount)
      locals store fun locals' store' => locals' = locals ∧ store.Keeps store' := by
  have quiet : s.plan.mintCount.isQuiet Plan.silentNames := by
    unfold Plan.mintCount
    split <;> rfl
  split
  · exact Stmt.leads_nil ⟨rfl, .refl _⟩
  · exact Stmt.leads_steady silences (saleChecks_quiet quiet) (saleChecks_steady _)

theorem leads_gate :
    Stmt.Leads (s.scope message depth)
      (Part.items (.optional (if s.plan.minterPicksIds then none
        else s.plan.gate.map fun gate => gate.ownsSome s.plan.sender)))
      locals store fun locals' store' => locals' = locals ∧ store.Keeps store' := by
  cases s.plan.minterPicksIds with
  | true => exact Stmt.leads_nil ⟨rfl, .refl _⟩
  | false =>
    cases s.plan.gate with
    | none => exact Stmt.leads_nil ⟨rfl, .refl _⟩
    | some gate => exact Stmt.leads_steady silences (ownsSome_quiet gate) (ownsSome_steady gate _)

/-- Behind the checks of the sale a call mints as many tokens as it may. -/
theorem leads_afterSale {n : Nat} (sound : s.plan.Sound store) (ready : s.Ready n locals) :
    Stmt.Leads (s.scope message (depth + 1)) s.plan.afterSale locals store fun _ store' =>
      s.Admitted message store n ∧ s.Grown store n store' := by
  simp only [Plan.afterSale, outline_cons, outline_nil]
  refine leads_gate.append fun locals' first ⟨same, kept⟩ => ?_
  rw [same]
  have soundHere := sound.of_keeps kept
  refine (leads_supplyCheck soundHere ready).append fun locals' second ⟨same, here, supplied⟩ => ?_
  rw [same, here]
  refine (leads_paymentCheck ready).append fun locals' third ⟨same, here, paid⟩ => ?_
  rw [same, here, List.append_nil]
  refine (leads_tokens soundHere ready).mono fun _ store' ⟨sound', minted, split, length⟩ => ?_
  rw [kept.tokens] at supplied split
  exact ⟨⟨ready.limited, ready.single, supplied, paid⟩, sound', minted, split, length⟩

theorem leads_mintBody (sound : s.plan.Sound store) {values : List Value}
    (bound : bindArguments s.plan.mintArguments values = some locals) :
    Stmt.Leads (s.scope message (depth + 1)) s.plan.mintBody locals store fun _ store' =>
      ∃ n, s.Admitted message store n ∧ s.Grown store n store' := by
  rw [Plan.mintBody_eq]
  refine (leads_batchChecks bound).append fun locals' first ⟨same, n, ready⟩ => ?_
  rw [same]
  refine leads_sale.append fun locals'' second ⟨same, kept⟩ => ?_
  rw [same]
  refine (leads_afterSale (sound.of_keeps kept) ready).mono
    fun _ store' ⟨admitted, sound', minted, split, length⟩ => ?_
  have supplied := admitted.supplied
  rw [kept.tokens] at supplied split
  exact ⟨n, ⟨admitted.limited, admitted.single, supplied, admitted.paid⟩, sound', minted, split,
    length⟩

end Settings

end Mintage
