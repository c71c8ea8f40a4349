import Mintage.Proofs.Contract.Names
import Mintage.Proofs.Allowance.Mint
import Mintage.Proofs.Execution.History

/-! The ledger that the constructor leaves: nobody is counted, and allowances are given. -/
namespace Mintage

open Solidity

namespace Solidity.Store.Holds

variable {store : Store} {l : Ledger}

/-- Other variables do not belong to the ledger. -/
theorem assign (holds : store.Holds l) {name : String} (other : name ≠ "saleIsActive")
    (value : Value) : ((Place.name name).update value store).Holds l := by
  refine ⟨?_, holds.counted, holds.allowed, holds.fits⟩
  simp [Place.update, other.symm, holds.isOpen]

theorem switchSale (holds : store.Holds l) (isOpen : Bool) :
    ((Place.name "saleIsActive").update (.truth isOpen) store).Holds { l with isOpen } := by
  refine ⟨?_, holds.counted, holds.allowed, holds.fits⟩
  simp [Place.update]

theorem allow (holds : store.Holds l) (account : Nat) {n : Nat} (fits : n < wordBound) :
    ((Place.entry "allowedMintCountMap" account).update (.number n) store).Holds
      { l with allowed := fun a => if a = account then n else l.allowed a } := by
  refine ⟨holds.isOpen, fun a => ?_, fun a => ?_, fun a => ?_⟩
  · simp [Place.update, holds.counted]
  · by_cases same : a = account
    · simp [Place.update, same]
    · simp [Place.update, same, holds.allowed]
  · by_cases same : a = account
    · simp [same, fits]
    · simp [same, holds.fits]

end Solidity.Store.Holds

/-- The ledger is this one but for the allowances, which are any. -/
def Solidity.Store.Seeded (store : Store) (l : Ledger) : Prop :=
  ∃ allowed, store.Holds { l with allowed }

namespace Settings

variable {s : Settings} {message : Message} {depth : Nat} {locals : Locals}
  {store store' : Store} {l : Ledger} {value : Value}

theorem wordBound_pos : 0 < wordBound := by decide

theorem constructor_found :
    (s.plan.contract.body.filterMap Member.constructor?).head? = some s.plan.constructor :=
  congrArg List.head? s.plan.constructors_body

/-- At the start nothing is counted or allowed, and the switch is as planned. -/
theorem holds_of_fresh (counts : s.plan.countsMints = true)
    (fresh : s.plan.contract.Fresh store) :
    store.Holds ⟨s.plan.startsActive, fun _ => 0, fun _ => 0⟩ := by
  have switch : Member.fieldWith "bool" ["public"] "saleIsActive" (.bool s.plan.startsActive) ∈
      s.plan.contract.body := by
    simp [Plan.contract, Plan.body, Plan.activation]
  have tally (name : String) (either : name = "mintCountMap" ∨ name = "allowedMintCountMap") :
      ∀ key, store.entries name key = .number 0 := by
    have mem : Member.field "mapping(address => uint256)" ["private"] name ∈
        s.plan.contract.body := by
      rcases either with rfl | rfl <;>
        simp [Plan.contract, Plan.body, Plan.allowlist, counts, Member.field]
    exact fresh.entries name (List.mem_filterMap.2 ⟨_, mem, rfl⟩)
  refine ⟨?_, tally _ (.inl rfl), tally _ (.inr rfl), fun _ => wordBound_pos⟩
  exact fresh.fields ("saleIsActive", .truth s.plan.startsActive)
    (List.mem_filterMap.2 ⟨_, switch, rfl⟩)

/-- A seeded ledger stays one when any variable but the switch is set. -/
theorem leads_assignment (seeded : store.Seeded l) {name : String}
    (other : name ≠ "saleIsActive") {e : Expr}
    (keeps : ∀ value first, e.eval (s.scope message depth) locals store = some (value, first) →
      first = store) :
    Stmt.Leads (s.scope message depth) [.set (.ident name) e] locals store
      fun locals' store' => locals' = locals ∧ store'.Seeded l := by
  refine Stmt.leads_set fun value first place second evaluated placed => ⟨rfl, ?_⟩
  cases placed
  rw [keeps value first evaluated]
  obtain ⟨allowed, holds⟩ := seeded
  exact ⟨allowed, holds.assign other value⟩

theorem eval_ident_keeps {scope : Scope} {name : String} (value : Value) (first : Store)
    (run : (Expr.ident name).eval scope locals store = some (value, first)) : first = store := by
  obtain ⟨_, -, same⟩ := Option.map_eq_some_iff.1 run
  cases same
  rfl

/-- The key may be anything, since a seeded ledger may hold any allowances. -/
theorem leads_allowance (seeded : store.Seeded l) {key : Expr} {n : Nat} (fits : n < wordBound)
    (keeps : ∀ value first, key.eval (s.scope message depth) locals store = some (value, first) →
      first = store) :
    Stmt.Leads (s.scope message depth) [.set (Plan.allowed key) (.nat n)] locals store
      fun locals' store' => locals' = locals ∧ store'.Seeded l := by
  refine Stmt.leads_set fun value first place second evaluated placed => ⟨rfl, ?_⟩
  rw [Expr.eval_nat] at evaluated
  cases evaluated
  simp only [Plan.allowed, Expr.place, Option.bind_eq_bind, Option.bind_eq_some_iff,
    Prod.exists] at placed
  obtain ⟨account, second, looked, placed⟩ := placed
  cases account with
  | number account =>
    cases placed
    rw [keeps _ _ looked]
    obtain ⟨allowed, holds⟩ := seeded
    exact ⟨_, holds.allow account fits⟩
  | _ => cases placed

theorem eval_owner_keeps (value : Value) (first : Store)
    (run : s.plan.owner.eval (s.scope message (depth + 1)) locals store = some (value, first)) :
    first = store := by
  have base (name : String) (isOwner : name = "_owner" ∨ name = "owner") :
      (Expr.apply name []).eval (s.scope message (depth + 1)) locals store =
        some (.number store.owner, store) := by
    have found : s.plan.contract.function? name = none := by
      rcases isOwner with rfl | rfl <;> exact s.undeclared_function? (by decide) (by decide)
    have inherited := Contract.invoke_of_inherited _ found message depth [] store
    rw [Expr.eval_apply (by rcases isOwner with rfl | rfl <;> decide) rfl]
    rcases isOwner with rfl | rfl <;> exact inherited
  have owner : s.plan.owner.eval (s.scope message (depth + 1)) locals store =
      some (.number store.owner, store) := by
    unfold Plan.owner
    split
    · exact base "_owner" (.inl rfl)
    · exact base "owner" (.inr rfl)
  rw [owner] at run
  cases run
  rfl

theorem eval_conversion_keeps {name : String} (value : Value) (first : Store)
    (run : (Expr.apply "IERC721" [.ident name]).eval (s.scope message depth) locals store =
      some (value, first)) : first = store := by
  cases read : (s.scope message depth).read locals name store with
  | none => simp [Expr.apply, Expr.eval, Expr.evalAll, read] at run
  | some argument =>
    have evaluated : Expr.evalAll (s.scope message depth) locals [.ident name] store =
        some ([argument], store) := by simp [Expr.evalAll, Expr.eval, read]
    rw [Expr.eval_apply (by decide) evaluated] at run
    cases run
    rfl

/-- Allowances are words of 32 bits in the settings. -/
theorem allowances_lt (account : String) (n : Nat) (mem : (account, n) ∈ s.plan.allowances) :
    n < wordBound := by
  obtain ⟨a, -, same⟩ := List.mem_map.1 mem
  cases same
  have small := a.count.toNat_lt
  unfold wordBound
  omega

theorem ownerAllowance_lt : s.plan.ownerAllowance < wordBound := by
  have small := s.ownerAllowance.toNat_lt
  simp only [plan, wordBound]
  omega

theorem leads_allowances (seeded : store.Seeded l) (allowances : List (String × Nat))
    (fit : ∀ entry ∈ allowances, entry.2 < wordBound) :
    Stmt.Leads (s.scope message depth)
      (allowances.map fun a => .set (Plan.allowed (.ident a.1)) (.nat a.2)) locals store
      fun _ store' => store'.Seeded l := by
  induction allowances generalizing store with
  | nil => exact Stmt.leads_nil seeded
  | cons a allowances ih =>
    refine Stmt.Leads.cons
      (leads_allowance seeded (fit a List.mem_cons_self) eval_ident_keeps)
      fun locals' store' ⟨same, seeded⟩ => ?_
    rw [same]
    exact ih seeded fun entry mem => fit entry (List.mem_cons_of_mem _ mem)

/-- Each part of the constructor seeds the ledger or leaves it alone. -/
theorem leads_constructor (depth : Nat) (seeded : store.Seeded l) :
    Stmt.Leads (s.scope message (depth + 1)) s.plan.constructor.body locals store
      fun _ store' => store'.Seeded l := by
  have guarded (condition : Bool) {name : String} (other : name ≠ "saleIsActive") {e : Expr}
      (keeps : ∀ store value first, e.eval (s.scope message (depth + 1)) locals store =
        some (value, first) → first = store) {store : Store} (seeded : store.Seeded l) :
      Stmt.Leads (s.scope message (depth + 1)) (Part.items (.when condition (.set (.ident name) e)))
        locals store fun locals' store' => locals' = locals ∧ store'.Seeded l := by
    cases condition with
    | false => exact Stmt.leads_nil ⟨rfl, seeded⟩
    | true => exact leads_assignment seeded other (keeps store)
  simp only [Plan.constructor, outline_cons, outline_nil, List.append_nil]
  refine (guarded _ (by decide) (fun _ => eval_ident_keeps) seeded).append
    fun locals' store' ⟨same, seeded⟩ => ?_
  rw [same]
  refine (guarded _ (by decide) (fun _ => eval_conversion_keeps) seeded).append
    fun locals' store' ⟨same, seeded⟩ => ?_
  rw [same]
  refine (guarded _ (by decide) (fun _ => eval_ident_keeps) seeded).append
    fun locals' store' ⟨same, seeded⟩ => ?_
  rw [same]
  simp only [Part.items, Plan.initialAllowances, outline_cons, outline_nil, List.append_nil]
  have owners : Stmt.Leads (s.scope message (depth + 1))
      (if (s.plan.ownerAllowance != 0) = true then
        [.set (Plan.allowed s.plan.owner) (.nat s.plan.ownerAllowance)] else []) locals store'
      fun locals' store' => locals' = locals ∧ store'.Seeded l := by
    split
    · exact leads_allowance seeded ownerAllowance_lt eval_owner_keeps
    · exact Stmt.leads_nil ⟨rfl, seeded⟩
  refine owners.append fun locals' store' ⟨same, seeded⟩ => ?_
  rw [same]
  exact leads_allowances seeded _ fun entry => allowances_lt entry.1 entry.2

/-- The functions that the constructor calls. -/
def ownerNames : List String := ["owner", "_owner"]

/-- The constructor neither mints nor counts tokens. -/
theorem constructor_quiet : Stmt.allQuiet ownerNames s.plan.constructor.body := by
  rw [Stmt.allQuiet_eq_all, List.all_eq_true]
  intro stmt mem
  have owner : s.plan.owner.isQuiet ownerNames := by
    unfold Plan.owner
    split <;> rfl
  simp only [Plan.constructor, Plan.initialAllowances, outline_cons, outline_nil, List.append_nil,
    List.mem_append, Part.mem_when, Part.mem_all, List.mem_map] at mem
  rcases mem with ⟨-, rfl⟩ | ⟨-, rfl⟩ | ⟨-, rfl⟩ | ⟨-, rfl⟩ | ⟨a, -, rfl⟩
  · rfl
  · rfl
  · rfl
  · simp [Stmt.set, Expr.set, Stmt.isQuiet, Plan.allowed, Expr.isQuiet, Expr.nat, owner]
  · rfl

theorem constructor_steady : Stmt.allSteady s.plan.constructor.body := by
  rw [Stmt.allSteady_eq_all, List.all_eq_true]
  intro stmt mem
  simp only [Plan.constructor, Plan.initialAllowances, outline_cons, outline_nil, List.append_nil,
    List.mem_append, Part.mem_when, Part.mem_all, List.mem_map] at mem
  rcases mem with ⟨-, rfl⟩ | ⟨-, rfl⟩ | ⟨-, rfl⟩ | ⟨-, rfl⟩ | ⟨a, -, rfl⟩ <;> rfl

/-- The constructor counts nobody, creates no token and leaves the sale as it is planned. -/
theorem seeded_of_deploy (counts : s.plan.countsMints = true) {start : Store}
    (fresh : s.plan.contract.Fresh start) {values : List Value}
    (built : s.plan.contract.deploy message values start = some store) :
    start.Keeps store ∧ store.Seeded ⟨s.plan.startsActive, fun _ => 0, fun _ => 0⟩ := by
  unfold Contract.deploy at built
  rw [constructor_found] at built
  simp only [Option.bind_eq_bind, Option.bind_some, Option.bind_eq_some_iff, Prod.exists] at built
  obtain ⟨locals, bound, flow, after, run, same⟩ := built
  cases same
  have silences : (s.scope message callDepth).Silences ownerNames := by
    refine s.plan.contract.invoke_quiet message (fun name mem f found => ?_) (by decide) callDepth
    have undeclared : s.plan.contract.function? name = none := by
      simp only [ownerNames, List.mem_cons, List.not_mem_nil, or_false] at mem
      rcases mem with rfl | rfl <;> exact s.undeclared_function? (by decide) (by decide)
    rw [undeclared] at found
    cases found
  have kept := Stmt.leads_steady silences constructor_quiet constructor_steady _ _ run
  have seeds : start.Seeded ⟨s.plan.startsActive, fun _ => 0, fun _ => 0⟩ :=
    ⟨_, holds_of_fresh counts fresh⟩
  have seeded := leads_constructor 1023 seeds _ _ run
  obtain ⟨_, -, -, kept⟩ := kept
  obtain ⟨_, -, seeded⟩ := seeded
  exact ⟨kept, seeded⟩

end Settings

end Mintage
