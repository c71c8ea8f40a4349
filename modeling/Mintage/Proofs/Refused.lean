import Mintage.Proofs.Metadata

/-! A template that is refused: the addresses have the standard shape, but a text in front of a slot
that is not known is kept as the base. It shows in a delegated contract that stores addresses, and
nowhere else. -/
namespace Mintage

open Solidity Template

theorem Template.leading_eq_empty_iff (template : String) :
    leading template = "" ↔ ∀ text rest, parse template ≠ .ok (.text text :: rest) := by
  constructor
  · intro empty text rest parsed
    have kept : text = "" := by rwa [leading, parsed] at empty
    unfold parse at parsed
    split at parsed
    · cases parsed
    · rename_i scanned
      cases parsed
      exact ne_empty_of_mem_scan scanned List.mem_cons_self kept
  · intro none
    unfold leading
    split
    · rename_i text rest parsed
      exact absurd parsed (none text rest)
    · rfl

/-- A template that is refused leaves the address to the base and the number. -/
theorem UriShape.ofTemplate_of_refused {template : String} {error : Error}
    (refused : parseUri template = .error error) (hasParameters : Bool) :
    ofTemplate template hasParameters = .standard false := by
  unfold ofTemplate
  rw [refused]

namespace Plan

variable (p : Plan)

/-- The same plan with another base of the addresses. -/
def rebase (base : String) : Plan := { p with uriBase := base }

/-- The base is written into a delegated contract alone. -/
theorem uriOf_rebase (base : String) (own : p.isDelegated = false) :
    (p.rebase base).uriOf = p.uriOf := by
  have own' : (p.rebase base).isDelegated = false := own
  have same : (p.rebase base).baseUri = p.baseUri := by
    unfold baseUri
    rw [own, own']
    rfl
  unfold uriOf
  rw [same]
  rfl

/-- The base is read by no other function than the one for the addresses. -/
theorem program_rebase (base : String)
    (unread : p.overridesUri = true → (p.rebase base).uriOf = p.uriOf) :
    (p.rebase base).program = p.program := by
  have uriSection : (p.rebase base).uriSection = p.uriSection := by
    have overrides : (p.rebase base).overridesUri = p.overridesUri := rfl
    unfold uriSection
    rw [overrides]
    cases own : p.overridesUri with
    | false => rfl
    | true =>
      have function : (p.rebase base).uriFunction = p.uriFunction := by
        unfold uriFunction uriBody
        rw [unread own]
        rfl
      rw [function]
      rfl
  have body : (p.rebase base).body = p.body := by
    unfold body
    rw [uriSection]
    rfl
  unfold program contract
  rw [body]
  rfl

/-- The main contract stands at the end of the program, with one comment behind it, so the program
tells which it is. -/
theorem contract_of_program {p q : Plan} (same : p.program = q.program) :
    p.contract = q.contract := by
  have items : p.registryContracts.map Item.contract ++ [Item.contract p.contract, _] =
      q.registryContracts.map Item.contract ++ [Item.contract q.contract, _] :=
    congrArg Program.body same
  have last := List.append_inj_right' items rfl
  exact Item.contract.inj (List.cons.inj last).1

theorem overridesUri_of_standard (shape : p.uriShape = .standard false) :
    p.overridesUri = p.storesUris := by
  rw [overridesUri, shape, Bool.or_false]

theorem getLast?_uriBody : p.uriBody.getLast? = some (.returns p.uriOf) := by
  simp [uriBody, Part.items]

end Plan

namespace Settings

variable {s t : Settings}

/-- The address of a token is read off the program. -/
theorem uriOf_of_program (same : s.program = t.program) (overrides : s.plan.overridesUri = true)
    (overrides' : t.plan.overridesUri = true) : s.plan.uriOf = t.plan.uriOf := by
  have found := congrArg (·.function? "tokenURI") (Plan.contract_of_program same)
  simp only [tokenUri_function?, overrides, overrides', if_true, Option.some.injEq,
    Function.mk.injEq] at found
  have last := congrArg List.getLast? found.2.2.2.2
  rw [Plan.getLast?_uriBody, Plan.getLast?_uriBody] at last
  exact Option.some.inj (Stmt.ret.inj (Option.some.inj last))

/-- The base of a standard address is read off the program. -/
theorem uriBase_of_program (same : s.program = t.program)
    (shape : s.plan.uriShape = .standard false) (shape' : t.plan.uriShape = .standard false)
    (stores : s.storesUris = true) (stores' : t.storesUris = true)
    (delegated : s.plan.isDelegated = true) (delegated' : t.plan.isDelegated = true) :
    s.plan.uriBase = t.plan.uriBase := by
  have addresses := uriOf_of_program same ((s.plan.overridesUri_of_standard shape).trans stores)
    ((t.plan.overridesUri_of_standard shape').trans stores')
  simp only [Plan.uriOf, shape, shape', Plan.baseUri, delegated, delegated', if_true] at addresses
  simpa [Plan.packed, Expr.apply, Expr.method] using addresses

/-- The same settings, with the number of the token for its address. -/
def numbered (s : Settings) : Settings := { s with tokenUri := "\x7btokenId\x7d" }

theorem plan_numbered {error : Template.Error} (refused : parseUri s.tokenUri = .error error) :
    s.numbered.plan = s.plan.rebase "" := by
  have shape : s.plan.uriShape = .standard false := UriShape.ofTemplate_of_refused refused _
  have template : s.numbered.tokenUri = "\x7btokenId\x7d" := rfl
  have accepted : parseUri s.numbered.tokenUri = .ok [.slot tokenIdSlot] := by
    rw [template]
    decide +kernel
  have shape' : s.numbered.plan.uriShape = _ := UriShape.ofTemplate_of_parseUri accepted
  have base : s.numbered.plan.uriBase = "" := by
    have leads : leading "\x7btokenId\x7d" = "" := by decide +kernel
    rw [← leads, ← template]
    rfl
  have others : s.numbered.plan =
    { s.plan with uriShape := s.numbered.plan.uriShape, uriBase := s.numbered.plan.uriBase } := rfl
  rw [others, shape', base]
  unfold Plan.rebase
  rw [shape]
  rfl

/-- Whatever the reason for which a template is refused, the shape of the addresses is the standard
one. The base is what stands in front of the first slot where the braces match, and empty if
nothing does; the program is the one of the empty base unless a delegated contract that stores
addresses has another one. -/
theorem program_numbered_iff (s : Settings) {error : Template.Error}
    (refused : parseUri s.tokenUri = .error error) :
    s.plan.uriShape = .standard false ∧
      (s.plan.uriBase = "" ↔ ∀ text rest, Template.parse s.tokenUri ≠ .ok (.text text :: rest)) ∧
      (s.numbered.program = s.program ↔
        (s.delegated = true → s.storesUris = true → s.plan.uriBase = "")) := by
  have shape : s.plan.uriShape = .standard false := UriShape.ofTemplate_of_refused refused _
  have numbered := plan_numbered refused
  refine ⟨shape, leading_eq_empty_iff s.tokenUri, ?_⟩
  constructor
  · -- both contracts have their base written into them, where it can be read
    intro same delegated stores
    have shape' : s.numbered.plan.uriShape = .standard false := by rw [numbered]; exact shape
    have base : s.numbered.plan.uriBase = s.plan.uriBase :=
      uriBase_of_program same shape' shape stores stores
        (by rw [isDelegated_plan]; exact delegated) (by rw [isDelegated_plan]; exact delegated)
    rw [← base, numbered]
    rfl
  · intro hidden
    rw [program, numbered]
    refine s.plan.program_rebase "" fun overrides => ?_
    cases delegated : s.delegated with
    | false => exact s.plan.uriOf_rebase "" (s.isDelegated_plan.trans delegated)
    | true =>
      have empty := hidden delegated ((s.plan.overridesUri_of_standard shape).symm.trans overrides)
      have same : s.plan.rebase "" = s.plan := by rw [← empty]; rfl
      rw [same]

/-- A template with a slot that is not known, and a text in front of it. -/
def sampleRefused : Settings where
  __ := blank
  tokenUri := "abc\x7bfoo\x7d"
  storesUris := true

theorem program_sampleRefused :
    parseUri sampleRefused.tokenUri = .error (.unrecognized "foo") ∧
      sampleRefused.plan.uriBase = "abc" ∧
      sampleRefused.numbered.program = sampleRefused.program := by
  have refused : parseUri sampleRefused.tokenUri = .error (.unrecognized "foo") := by
    decide +kernel
  obtain ⟨-, -, same⟩ := program_numbered_iff sampleRefused refused
  exact ⟨refused, by decide +kernel, same.2 nofun⟩

theorem program_sampleRefused_delegated :
    parseUri { sampleRefused with delegated := true }.tokenUri = .error (.unrecognized "foo") ∧
      { sampleRefused with delegated := true }.plan.uriBase = "abc" ∧
      { sampleRefused with delegated := true }.numbered.program ≠
        { sampleRefused with delegated := true }.program := by
  have refused : parseUri { sampleRefused with delegated := true }.tokenUri =
      .error (.unrecognized "foo") := by decide +kernel
  refine ⟨refused, by decide +kernel, fun same => ?_⟩
  have base := uriBase_of_program same (by decide +kernel) (by decide +kernel) rfl rfl rfl rfl
  exact absurd base (by decide +kernel)

end Settings

end Mintage
