import Mintage.Proofs.Allowance.Sale

/-! Behind the checks of the sale a call of `mint` leaves the ledger alone. -/
namespace Mintage

open Solidity

/-- Writing to any other map leaves the ledger alone. -/
theorem Solidity.Store.Holds.update {store : Store} {l : Ledger} (holds : store.Holds l)
    {map : String} (other : map ≠ "mintCountMap" ∧ map ≠ "allowedMintCountMap") (key : Nat)
    (value : Value) : ((Place.entry map key).update value store).Holds l := by
  refine ⟨holds.isOpen, fun a => ?_, fun a => ?_, holds.fits⟩
  · simp [Place.update, other.1.symm, holds.counted]
  · simp [Place.update, other.2.symm, holds.allowed]

namespace Settings

variable {s : Settings} {message : Message} {depth : Nat} {locals : Locals}
  {store store' : Store} {l : Ledger} {n : Nat} {value : Value}

/-- The question to the contract of the access token. -/
theorem holds_of_ask (holds : store.Holds l) {function : String}
    (asks : function = "balanceOf" ∨ function = "ownerOf") {argument : Expr} {n : Nat}
    (number : argument.eval (s.scope message depth) locals store = some (.number n, store))
    (run : (Gate.token.method function [argument]).eval (s.scope message depth) locals store =
      some (value, store')) : store'.Holds l := by
  have asked : (s.scope message depth).ask store = some (value, store') := by
    rcases asks with rfl | rfl <;>
      simpa [Gate.token, Expr.method, Expr.eval, Expr.evalAll, number, Scope.applyMember] using run
  cases asked
  exact holds.of_eq rfl rfl

/-- A rule that is switched off asks nothing. -/
theorem leads_guarded (gate : Gate) {test : Expr} {text : String} (holds : store.Holds l)
    (keeps : ∀ store value store', store.Holds l →
      test.eval (s.scope message depth) locals store = some (value, store') → store'.Holds l) :
    Stmt.Leads (s.scope message depth) [gate.guarded (.require test text)] locals store
      fun locals' store' => locals' = locals ∧ store'.Holds l := by
  have required {store : Store} (holds : store.Holds l) :
      Stmt.Leads (s.scope message depth) [.require test text] locals store
        fun locals' store' => locals' = locals ∧ store'.Holds l :=
    Stmt.leads_require fun store' run => ⟨rfl, keeps _ _ _ holds run⟩
  unfold Gate.guarded
  split
  · refine Stmt.leads_cond fun passed first run => ?_
    obtain ⟨_, -, same⟩ := Option.map_eq_some_iff.1 run
    cases same
    cases passed with
    | true => exact (required holds).mono fun _ _ ⟨_, holds⟩ => ⟨rfl, holds⟩
    | false => exact Stmt.leads_nil ⟨rfl, holds⟩
  · exact required holds

theorem leads_ownsSome_holds (gate : Gate) (holds : store.Holds l) (ofMint : locals.OfMint) :
    Stmt.Leads (s.scope message (depth + 1)) [gate.ownsSome s.plan.sender] locals store
      fun locals' store' => locals' = locals ∧ store'.Holds l := by
  refine leads_guarded gate holds fun store value store' holds run => ?_
  obtain ⟨a, first, b, left, right, -⟩ := Expr.of_eval_binary run
  rw [Expr.eval_nat] at right
  cases right
  exact holds_of_ask holds (.inl rfl) (eval_sender (ofMint "msg.sender" (by decide))) left

theorem leads_ownsThis_holds (gate : Gate) (holds : store.Holds l) (ofMint : locals.OfMint)
    {id : Nat} (picked : locals.lookup "id" = some (.number id)) :
    Stmt.Leads (s.scope message (depth + 1)) [gate.ownsThis s.plan.sender (.ident "id")] locals
      store fun locals' store' => locals' = locals ∧ store'.Holds l := by
  refine leads_guarded gate holds fun store value store' holds run => ?_
  obtain ⟨a, first, b, left, right, -⟩ := Expr.of_eval_binary run
  rw [eval_sender (ofMint "msg.sender" (by decide))] at right
  cases right
  exact holds_of_ask holds (.inr rfl) (Expr.eval_local (by decide) picked) left

theorem leads_storeParameters_holds (holds : store.Holds l) {tokenId : Expr}
    (number : ∀ store, ∃ id, tokenId.eval (s.scope message depth) locals store =
      some (.number id, store)) :
    Stmt.Leads (s.scope message depth) (s.plan.storeParameters tokenId) locals store
      fun locals' store' => locals' = locals ∧ store'.Holds l := by
  unfold Plan.storeParameters
  split
  · refine Stmt.leads_set fun value first place second evaluated placed => ⟨rfl, ?_⟩
    obtain ⟨_, -, same⟩ := Option.map_eq_some_iff.1 evaluated
    cases same
    obtain ⟨id, key⟩ := number store
    simp only [Parameter.stored, Expr.place, key, Option.bind_eq_bind, Option.bind_some] at placed
    cases placed
    exact holds.update (by decide) id value
  · exact Stmt.leads_nil ⟨rfl, holds⟩

theorem leads_countToken_holds (holds : store.Holds l) :
    Stmt.Leads (s.scope message depth) s.plan.countToken locals store
      fun _ store' => store'.Holds l := by
  unfold Plan.countToken
  split
  · refine Stmt.leads_expr fun value store' run => ?_
    have counted : store.increment "supplyCounter" = some (value, store') := by
      simpa [Plan.counter, Expr.method, Expr.eval, Expr.evalAll, Scope.applyMember] using run
    unfold Store.increment at counted
    split at counted
    · cases counted
      exact holds.of_eq rfl rfl
    · cases counted
  · exact Stmt.leads_nil holds

/-- A new token is no entry of the ledger. -/
theorem leads_creation_holds (holds : store.Holds l) (ofMint : locals.OfMint) {tokenId : Expr}
    (number : ∀ store, ∃ id, tokenId.eval (s.scope message (depth + 1)) locals store =
      some (.number id, store)) :
    Stmt.Leads (s.scope message (depth + 1))
      (s.plan.storeParameters tokenId ++
        ([Stmt.expr (s.plan.mint s.plan.sender tokenId)] ++ s.plan.countToken)) locals store
      fun _ store' => store'.Holds l := by
  refine (leads_storeParameters_holds holds number).append fun locals' first ⟨same, holds⟩ => ?_
  rw [same]
  have mints : Stmt.Leads (s.scope message (depth + 1))
      [.expr (s.plan.mint s.plan.sender tokenId)] locals first
      fun locals' store' => locals' = locals ∧ store'.Holds l := by
    refine Stmt.leads_expr fun value second run => ⟨rfl, ?_⟩
    obtain ⟨id, evaluated⟩ := number first
    rw [eval_mint (ofMint "msg.sender" (by decide)) evaluated] at run
    unfold Store.mint at run
    split at run
    · cases run
    · cases run
      exact holds.of_eq rfl rfl
  refine mints.append fun locals' second ⟨same, holds⟩ => ?_
  rw [same]
  exact leads_countToken_holds holds

theorem leads_mintPicked_holds (holds : store.Holds l) (ofMint : locals.OfMint)
    (several : s.plan.mintsSeveral = true → ∃ ids i, locals.lookup "ids" = some (.numbers ids) ∧
      locals.lookup "i" = some (.number i))
    (single : s.plan.mintsSeveral = false → ∃ id, locals.lookup "id" = some (.number id)) :
    Stmt.Leads (s.scope message (depth + 1)) s.plan.mintPicked locals store
      fun _ store' => store'.Holds l := by
  simp only [Plan.mintPicked, outline_cons, outline_nil]
  refine (leads_pickedId ofMint several single).append ?_
  rintro locals' first ⟨same, ofMint, id, picked⟩
  rw [same]
  have asks : Stmt.Leads (s.scope message (depth + 1)) (Part.items (.optional (s.plan.gate.map
      fun gate => gate.ownsThis s.plan.sender (.ident "id")))) locals' store
      fun locals'' store' => locals'' = locals' ∧ store'.Holds l := by
    cases s.plan.gate with
    | none => exact Stmt.leads_nil ⟨rfl, holds⟩
    | some gate => exact leads_ownsThis_holds gate holds ofMint picked
  refine asks.append ?_
  rintro locals'' second ⟨same, holds⟩
  rw [same]
  refine (leads_boundCheck ofMint picked).append ?_
  rintro _ third ⟨-, same, here⟩
  rw [same, here]
  simp only [Part.items, List.append_nil]
  exact leads_creation_holds holds ofMint fun store => ⟨id, Expr.eval_local (by decide) picked⟩

theorem leads_mintOne_holds (holds : store.Holds l) (ofMint : locals.OfMint)
    (several : s.plan.minterPicksIds = true → s.plan.mintsSeveral = true →
      ∃ ids i, locals.lookup "ids" = some (.numbers ids) ∧ locals.lookup "i" = some (.number i))
    (single : s.plan.minterPicksIds = true → s.plan.mintsSeveral = false →
      ∃ id, locals.lookup "id" = some (.number id)) :
    Stmt.Leads (s.scope message (depth + 1)) s.plan.mintOne locals store
      fun _ store' => store'.Holds l := by
  unfold Plan.mintOne
  split
  · rename_i picks
    exact leads_mintPicked_holds holds ofMint (several picks) (single picks)
  · simp only [Plan.mintNext, outline_cons, outline_nil, Part.items, List.append_nil]
    exact leads_creation_holds holds ofMint fun store => ⟨_, eval_totalSupply⟩

/-- The loop keeps the ledger, since each round does. -/
theorem leads_tokens_holds (holds : store.Holds l) (ready : s.Ready n locals) :
    Stmt.Leads (s.scope message (depth + 1))
      (if s.plan.mintsSeveral then [.loop "uint256 i = 0" "i < count" "i++" s.plan.mintOne]
        else s.plan.mintOne) locals store fun _ store' => store'.Holds l := by
  cases several : s.plan.mintsSeveral with
  | false =>
    rw [if_neg (by decide)]
    exact leads_mintOne_holds holds ready.ofMint (by simp [several]) ready.id
  | true =>
    rw [if_pos rfl]
    have counted : countedLoop? "uint256 i = 0" "i < count" "i++" = some ("i", "count") := by decide
    refine (Stmt.leads_loop (fun _ store => store.Holds l) counted (ready.counted several) holds
      fun k between holds => ?_).mono fun _ _ => And.right
    have picked (picks : s.plan.minterPicksIds = true) (_ : s.plan.mintsSeveral = true) :
        ∃ ids i, List.lookup "ids" (("i", .number k) :: locals) = some (.numbers ids) ∧
          List.lookup "i" (("i", Value.number k) :: locals) = some (.number i) := by
      obtain ⟨ids, all⟩ := ready.ids picks several
      exact ⟨ids, k, all, rfl⟩
    exact leads_mintOne_holds holds (ready.ofMint.cons (by decide) _) picked (by simp [several])

/-- Of a call of `mint` only the checks of the sale write to the ledger. -/
theorem leads_afterSale_holds (sound : s.plan.Sound store) (holds : store.Holds l)
    (ready : s.Ready n locals) :
    Stmt.Leads (s.scope message (depth + 1)) s.plan.afterSale locals store
      fun _ store' => store'.Holds l := by
  simp only [Plan.afterSale, outline_cons, outline_nil]
  have asks : Stmt.Leads (s.scope message (depth + 1))
      (Part.items (.optional (if s.plan.minterPicksIds then none
        else s.plan.gate.map fun gate => gate.ownsSome s.plan.sender))) locals store
      fun locals' store' => locals' = locals ∧ store'.Holds l := by
    cases s.plan.minterPicksIds with
    | true => exact Stmt.leads_nil ⟨rfl, holds⟩
    | false =>
      cases s.plan.gate with
      | none => exact Stmt.leads_nil ⟨rfl, holds⟩
      | some gate => exact leads_ownsSome_holds gate holds ready.ofMint
  refine (leads_gate.and asks).append ?_
  rintro locals' first ⟨⟨same, kept⟩, -, holds⟩
  rw [same]
  refine (leads_supplyCheck (sound.of_keeps kept) ready).append ?_
  rintro locals' second ⟨same, here, -⟩
  rw [same, here]
  refine (leads_paymentCheck ready).append ?_
  rintro locals' third ⟨same, here, -⟩
  rw [same, here, List.append_nil]
  exact leads_tokens_holds holds ready

end Settings

end Mintage
