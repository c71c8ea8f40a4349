import Mintage.Proofs.Contract.Calls

/-! One token: what the contract keeps true of its tokens whenever it mints one more. -/
namespace Mintage

open Solidity

namespace Plan

/-- The bound of the numbers that minters pick. -/
def idBound (p : Plan) : Option Nat := p.tokenIdLimit.or p.supply

/-- The tokens are counted, each exists once, and their numbers are as planned. -/
structure Sound (p : Plan) (store : Store) : Prop where
  counted : p.supplyOf store = store.tokens.length
  distinct : store.tokens.Nodup
  /-- Tokens whose numbers nobody picks are numbered from zero. -/
  numbered : p.minterPicksIds = false → store.tokens = (List.range store.tokens.length).reverse
  bounded : p.minterPicksIds = true → ∀ bound, p.idBound = some bound →
    ∀ id ∈ store.tokens, id < bound

namespace Sound

variable {p : Plan} {store store' : Store}

theorem of_keeps (sound : p.Sound store) (kept : store.Keeps store') : p.Sound store' := by
  have supply : p.supplyOf store' = p.supplyOf store := by
    simp only [supplyOf, kept.tokens, kept.counters]
  refine ⟨?_, ?_, ?_, ?_⟩
  · rw [supply, kept.tokens, sound.counted]
  · rw [kept.tokens]
    exact sound.distinct
  · rw [kept.tokens]
    exact sound.numbered
  · rw [kept.tokens]
    exact sound.bounded

/-- Creating a token that is counted keeps everything. -/
theorem create (sound : p.Sound store) {id : Nat} (new : id ∉ store.tokens)
    (next : p.minterPicksIds = false → id = store.tokens.length)
    (inside : p.minterPicksIds = true → ∀ bound, p.idBound = some bound → id < bound)
    (tokens : store'.tokens = id :: store.tokens)
    (counter : p.countsSupply = true →
      store'.counters "supplyCounter" = store.counters "supplyCounter" + 1) : p.Sound store' := by
  have counted := sound.counted
  refine ⟨?_, ?_, fun serial => ?_, fun picks bound isBound => ?_⟩
  · unfold supplyOf at counted ⊢
    rw [tokens, List.length_cons]
    split
    · rename_i counts
      rw [if_pos counts] at counted
      rw [counter counts, counted]
    · rfl
  · rw [tokens]
    exact List.nodup_cons.2 ⟨new, sound.distinct⟩
  · rw [tokens, List.length_cons, List.range_succ, List.reverse_append, ← sound.numbered serial,
      next serial]
    rfl
  · rw [tokens]
    intro token mem
    rcases List.mem_cons.1 mem with rfl | mem
    · exact inside picks bound isBound
    · exact sound.bounded picks bound isBound token mem

end Sound

end Plan

/-- The names that the function `mint` gives to its locals. -/
def mintLocals : List String := ["ids", "id", "count", "parameters", "i"]

/-- Only the locals of the function `mint` have values. -/
def Solidity.Locals.OfMint (locals : Locals) : Prop :=
  ∀ name, name ∉ mintLocals → locals.lookup name = none

theorem Solidity.Locals.OfMint.cons {locals : Locals} (ofMint : locals.OfMint) {name : String}
    (mem : name ∈ mintLocals) (value : Value) : Locals.OfMint ((name, value) :: locals) := by
  intro other notMem
  have apart : (other == name) = false := by
    refine beq_eq_false_iff_ne.2 ?_
    rintro rfl
    exact notMem mem
  rw [List.lookup_cons, apart]
  exact ofMint other notMem

namespace Settings

variable {s : Settings} {message : Message} {depth : Nat} {locals : Locals} {store : Store}

/-- A new token with its parameters, which is counted. -/
theorem leads_creation (sound : s.plan.Sound store) (ofMint : locals.OfMint) {tokenId : Expr}
    (quiet : tokenId.isQuiet Plan.silentNames) {id : Nat}
    (number : ∀ store', store.Keeps store' →
      tokenId.eval (s.scope message (depth + 1)) locals store' = some (.number id, store'))
    (next : s.plan.minterPicksIds = false → id = store.tokens.length)
    (inside : s.plan.minterPicksIds = true → ∀ bound, s.plan.idBound = some bound → id < bound) :
    Stmt.Leads (s.scope message (depth + 1))
      (s.plan.storeParameters tokenId ++
        ([Stmt.expr (s.plan.mint s.plan.sender tokenId)] ++ s.plan.countToken)) locals store
      fun _ store' => s.plan.Sound store' ∧ store'.tokens = id :: store.tokens := by
  -- The parameters are stored before the token exists, but the tokens do not depend on them.
  have stores : Stmt.Leads (s.scope message (depth + 1)) (s.plan.storeParameters tokenId) locals
      store fun locals' store' => locals' = locals ∧ store.Keeps store' := by
    refine Stmt.leads_steady silences ?_ ?_
    · unfold Plan.storeParameters
      split
      · simp [Stmt.allQuiet, Stmt.isQuiet, Stmt.set, Expr.set, Parameter.stored, Expr.isQuiet,
          quiet]
      · rfl
    · unfold Plan.storeParameters
      split <;> rfl
  refine stores.append fun locals' first ⟨same, kept⟩ => ?_
  rw [same]
  have mints : Stmt.Leads (s.scope message (depth + 1))
      [.expr (s.plan.mint s.plan.sender tokenId)] locals first fun locals' store' =>
        locals' = locals ∧ id ∉ store.tokens ∧ store'.tokens = id :: store.tokens ∧
          store'.counters = store.counters := by
    refine Stmt.leads_expr fun value second run => ?_
    rw [eval_mint (ofMint "msg.sender" (by decide)) (number first kept)] at run
    unfold Store.mint at run
    split at run
    · cases run
    · rename_i new
      cases run
      rw [kept.tokens] at new ⊢
      exact ⟨rfl, new, rfl, kept.counters⟩
  refine mints.append fun locals' second ⟨same, new, tokens, counters⟩ => ?_
  rw [same]
  unfold Plan.countToken
  split
  · refine Stmt.leads_expr fun value third run => ?_
    have counted : second.increment "supplyCounter" = some (value, third) := by
      simpa [Plan.counter, Expr.method, Expr.eval, Expr.evalAll, Scope.applyMember] using run
    unfold Store.increment at counted
    split at counted
    · cases counted
      refine ⟨sound.create new next inside tokens fun _ => ?_, tokens⟩
      simp [counters]
    · cases counted
  · rename_i listed
    refine Stmt.leads_nil ⟨sound.create new next inside tokens fun counts => ?_, tokens⟩
    exact absurd counts listed

theorem sender_quiet : s.plan.sender.isQuiet Plan.silentNames := by
  unfold Plan.sender
  split <;> rfl

theorem ownsThis_quiet (gate : Gate) (tokenId : String) :
    Stmt.allQuiet Plan.silentNames [gate.ownsThis s.plan.sender (.ident tokenId)] := by
  unfold Gate.ownsThis Gate.guarded
  split <;>
    simp [Stmt.allQuiet, Stmt.isQuiet, Stmt.alternativeQuiet, Stmt.require, Expr.apply, Expr.method,
      Gate.token, Expr.isQuiet, Expr.allQuiet, sender_quiet, builtins]

theorem ownsThis_steady (gate : Gate) (account tokenId : Expr) :
    Stmt.allSteady [gate.ownsThis account tokenId] := by
  unfold Gate.ownsThis Gate.guarded
  split <;> rfl

/-- The next number is the count of tokens, so it is new. -/
theorem leads_mintNext (sound : s.plan.Sound store) (ofMint : locals.OfMint)
    (serial : s.plan.minterPicksIds = false) :
    Stmt.Leads (s.scope message (depth + 1)) s.plan.mintNext locals store fun _ store' =>
      s.plan.Sound store' ∧ ∃ id, store'.tokens = id :: store.tokens := by
  have number (store' : Store) (kept : store.Keeps store') :
      Plan.totalSupply.eval (s.scope message (depth + 1)) locals store' =
        some (.number store.tokens.length, store') := by
    rw [eval_totalSupply, (sound.of_keeps kept).counted, kept.tokens]
  have creates := leads_creation sound ofMint rfl number (fun _ => rfl)
    fun picks => absurd picks (by simp [serial])
  simp only [Plan.mintNext, outline_cons, outline_nil, Part.items, List.append_nil]
  refine creates.mono ?_
  rintro _ _ ⟨later, tokens⟩
  exact ⟨later, _, tokens⟩

/-- The constant that bounds the numbers is the bound. -/
theorem idBound_constant {bound : String} (named : s.plan.tokenIdBound = some bound) :
    ∃ n, s.plan.idBound = some n ∧ bound ∈ ["MAX_TOKEN_ID", "MAX_SUPPLY"] ∧
      .constant bound n ∈ s.plan.contract.body := by
  unfold Plan.tokenIdBound at named
  unfold Plan.idBound
  split at named
  · rename_i own
    cases named
    obtain ⟨n, limit⟩ := Option.isSome_iff_exists.1 own
    refine ⟨n, by simp [limit], by simp, ?_⟩
    simp [Plan.contract, Plan.body, Plan.minting, limit]
  split at named
  · rename_i shared limited
    cases named
    obtain ⟨n, supply⟩ := Option.isSome_iff_exists.1 limited
    have none : s.plan.tokenIdLimit = none := by simpa using shared
    refine ⟨n, by simp [none, supply], by simp, ?_⟩
    simp [Plan.contract, Plan.body, Plan.minting, supply]
  · cases named

theorem eval_constant_of_mem {name : String} {n : Nat}
    (mem : .constant name n ∈ s.plan.contract.body) (single : Text.words name = [name])
    (plain : name ∉ ["msg.sender", "msg.value", "this"]) (unbound : locals.lookup name = none) :
    (Expr.ident name).eval (s.scope message depth) locals store = some (.number n, store) := by
  have held : s.plan.contract.constants.lookup name = some (.nat n) :=
    constant_of_mem (v := ⟨"uint256", ["public", "constant"], name, some (.nat n)⟩) mem
      (by simp) rfl
  exact Expr.eval_constant single unbound plain held (Expr.literal?_nat n)

theorem idBound_eq_none (unnamed : s.plan.tokenIdBound = none) : s.plan.idBound = none := by
  unfold Plan.tokenIdBound at unnamed
  unfold Plan.idBound
  split at unnamed
  · cases unnamed
  split at unnamed
  · cases unnamed
  · rename_i shared unlimited
    rw [Option.not_isSome_iff_eq_none] at shared unlimited
    rw [shared, unlimited]
    rfl

/-- The number of a picked token lies below the bound. -/
theorem leads_boundCheck (ofMint : locals.OfMint) {id : Nat}
    (picked : locals.lookup "id" = some (.number id)) :
    Stmt.Leads (s.scope message depth) (Part.items (.optional (s.plan.tokenIdBound.map fun bound =>
        .require (.binary (.ident "id") "<" (.ident bound)) "Invalid token id"))) locals store
      fun locals' store' =>
        (∀ bound, s.plan.idBound = some bound → id < bound) ∧
          locals' = locals ∧ store' = store := by
  cases named : s.plan.tokenIdBound with
  | none =>
    refine Stmt.leads_nil ⟨fun bound isBound => ?_, rfl, rfl⟩
    rw [idBound_eq_none named] at isBound
    cases isBound
  | some name =>
    obtain ⟨n, isBound, known, mem⟩ := idBound_constant named
    have limit : (Expr.ident name).eval (s.scope message depth) locals store =
        some (.number n, store) := by
      simp only [List.mem_cons, List.not_mem_nil, or_false] at known
      rcases known with rfl | rfl <;>
        exact eval_constant_of_mem mem (by decide) (by decide) (ofMint _ (by decide))
    have own : (Expr.ident "id").eval (s.scope message depth) locals store =
        some (.number id, store) := Expr.eval_local (by decide) picked
    refine (Stmt.leads_compare "<" _ (Expr.yields_of_eval own) (Expr.yields_of_eval limit)).mono
      fun locals' store' ⟨same, kept, compared⟩ => ⟨fun bound isBound' => ?_, same, kept⟩
    rw [isBound] at isBound'
    cases isBound'
    simpa [arithmetic] using compared

/-- The number of the next picked token, which is either an argument or one of several. -/
theorem leads_pickedId (ofMint : locals.OfMint)
    (several : s.plan.mintsSeveral = true → ∃ ids i, locals.lookup "ids" = some (.numbers ids) ∧
      locals.lookup "i" = some (.number i))
    (single : s.plan.mintsSeveral = false → ∃ id, locals.lookup "id" = some (.number id)) :
    Stmt.Leads (s.scope message depth) (Part.items (.when s.plan.mintsSeveral
      (.declare "uint256" "id" (.index (.ident "ids") (.ident "i"))))) locals store
      fun locals' store' => store' = store ∧ locals'.OfMint ∧
        ∃ id, locals'.lookup "id" = some (.number id) := by
  cases many : s.plan.mintsSeveral with
  | false => exact Stmt.leads_nil ⟨rfl, ofMint, single many⟩
  | true =>
    obtain ⟨ids, i, all, round⟩ := several many
    have index : (Expr.ident "i").eval (s.scope message depth) locals store =
        some (.number i, store) := Expr.eval_local (by decide) round
    refine Stmt.leads_declare fun value store' run => ?_
    rw [Expr.eval, index] at run
    simp only [Option.bind_eq_bind, Option.bind_some, Store.element, all] at run
    obtain ⟨element, entry, same⟩ := Option.bind_eq_some_iff.1 run
    obtain ⟨id, -, rfl⟩ := Option.map_eq_some_iff.1 entry
    cases same
    exact ⟨rfl, ofMint.cons (by decide) _, id, List.lookup_cons_self⟩

/-- Nothing is minted by the question who owns a token of another contract. -/
theorem leads_ownsThis :
    Stmt.Leads (s.scope message depth) (Part.items (.optional (s.plan.gate.map
      fun gate => gate.ownsThis s.plan.sender (.ident "id")))) locals store
      fun locals' store' => locals' = locals ∧ store.Keeps store' := by
  cases s.plan.gate with
  | none => exact Stmt.leads_nil ⟨rfl, .refl _⟩
  | some gate =>
    exact Stmt.leads_steady silences (ownsThis_quiet gate "id") (ownsThis_steady gate _ _)

theorem leads_mintPicked (sound : s.plan.Sound store) (ofMint : locals.OfMint)
    (picks : s.plan.minterPicksIds = true)
    (several : s.plan.mintsSeveral = true → ∃ ids i, locals.lookup "ids" = some (.numbers ids) ∧
      locals.lookup "i" = some (.number i))
    (single : s.plan.mintsSeveral = false → ∃ id, locals.lookup "id" = some (.number id)) :
    Stmt.Leads (s.scope message (depth + 1)) s.plan.mintPicked locals store fun _ store' =>
      s.plan.Sound store' ∧ ∃ id, store'.tokens = id :: store.tokens := by
  simp only [Plan.mintPicked, outline_cons, outline_nil]
  refine (leads_pickedId ofMint several single).append ?_
  rintro locals' first ⟨same, ofMint, id, picked⟩
  rw [same]
  refine leads_ownsThis.append ?_
  rintro locals'' second ⟨same, kept⟩
  rw [same]
  refine (leads_boundCheck ofMint picked).append ?_
  rintro _ third ⟨inside, same, here⟩
  rw [same, here]
  have number (store' : Store) (_ : second.Keeps store') :
      (Expr.ident "id").eval (s.scope message (depth + 1)) locals' store' =
        some (.number id, store') := Expr.eval_local (by decide) picked
  have creates := leads_creation (sound.of_keeps kept) ofMint rfl number
    (fun serial => absurd picks (by simp [serial])) fun _ => inside
  simp only [Part.items, List.append_nil]
  refine creates.mono ?_
  rintro _ _ ⟨later, tokens⟩
  exact ⟨later, id, by rw [tokens, kept.tokens]⟩

end Settings

end Mintage
