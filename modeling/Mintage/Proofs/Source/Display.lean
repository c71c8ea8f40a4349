import Mintage.Proofs.Solidity.Dense
import Mintage.Proofs.Source.Program

/-! The texts that a contract displays stand in literals and nowhere else: other texts leave the
source as it is around them. -/
namespace Mintage

open Layout Solidity Text

namespace Layout.Doc

/-- The skeleton of the texts of a document. -/
def bones (doc : Doc) : List Char := doc.gather fun t => skeleton t.toList

/-- The page of a program whose pieces close their literals closes its literals, and its skeleton is
that of the texts of its document. -/
theorem skeleton_render {p : Program} (closed : ∀ piece ∈ p.pieces, closesLiterals piece.2 = true)
    (width : Nat) :
    skeleton (p.doc.render width).toList = p.doc.bones ∧
      Quoting.code.run (p.doc.render width).toList = .code := by
  have gaps (c : Char) (gap : isGap c = true) : Quoting.kept .code c = [] := by
    have notQuote : c ≠ '"' := by
      rintro rfl
      cases gap
    rw [Quoting.kept, if_neg notQuote, if_pos gap]
  simp only [bones, skeleton_eq_pass]
  exact pass_render gaps (closed_closesLiterals.built_program closed).made width

end Layout.Doc

namespace Solidity

variable {e e' : Expr}

theorem Constructor.bones_base (c : Constructor) (same : e'.doc.bones = e.doc.bones) :
    ({ c with base := some e' } : Constructor).doc.bones =
      ({ c with base := some e } : Constructor).doc.bones := by
  unfold Doc.bones at same ⊢
  simp [Constructor.doc, same]

theorem Member.bones_fieldWith (type : String) (modifiers : List String) (name : String)
    (same : e'.doc.bones = e.doc.bones) :
    (fieldWith type modifiers name e').doc.bones = (fieldWith type modifiers name e).doc.bones := by
  unfold Doc.bones at same ⊢
  simp [fieldWith, Member.doc, Declaration.doc, Variable.doc, Variable.header, same]

/-- A contract has the skeleton of its name, its bases and its members. -/
theorem Contract.bones_body {c c' : Contract} (name : c'.name = c.name) (bases : c'.bases = c.bases)
    (body : (c'.body.flatMap fun m => m.doc.bones) = c.body.flatMap fun m => m.doc.bones) :
    c'.doc.bones = c.doc.bones := by
  have header : c'.header = c.header := by rw [header, name, bases]; rfl
  have tail (c : Contract) : (blockTail .blankLine (c.body.map Member.doc)).bones =
      (c.body.flatMap fun m => m.doc.bones) ++ skeleton "\x7d".toList := by
    rw [Doc.bones, Doc.gather_blockTail rfl, List.flatMap_map]
    rfl
  have parts (c : Contract) : c.doc.bones =
      c.header.bones ++ (blockTail .blankLine (c.body.map Member.doc)).bones := by
    simp [Contract.doc, Doc.bones]
  rw [parts, parts, tail, tail, header, body]

end Solidity

namespace Plan

variable (p : Plan) (title symbol : String) (uri : Option String)

/-- The plan with other texts to display. -/
def renamed : Plan := { p with title := title, symbol := symbol, contractUri := uri }

theorem bones_base :
    (p.renamed title symbol uri).baseConstructor.doc.bones = p.baseConstructor.doc.bones := by
  have delegated : (p.renamed title symbol uri).isDelegated = p.isDelegated := rfl
  unfold baseConstructor
  rw [delegated]
  split
  · simp [Doc.bones, Expr.apply, Expr.doc, Expr.docs, bracketed, commas, Doc.join, Doc.softLine,
      Doc.spaceLine, skeleton_quoted, renamed]
  · simp [Doc.bones, Expr.apply, Expr.doc, Expr.docs, bracketed, commas, Doc.join, Doc.softLine,
      Doc.spaceLine, skeleton_quoted]

theorem bones_constructor :
    (p.renamed title symbol uri).constructor.doc.bones = p.constructor.doc.bones :=
  p.constructor.bones_base (p.bones_base title symbol uri)

theorem bones_contractUri (uri uri' : String) :
    ((contractUriMembers uri').flatMap fun m => m.doc.bones) =
      (contractUriMembers uri).flatMap fun m => m.doc.bones := by
  have literal : (Expr.string uri').doc.bones = (Expr.string uri).doc.bones := by
    simp [Doc.bones, Expr.doc, skeleton_quoted]
  have field := Member.bones_fieldWith "string" ["private"] "customContractURI" literal
  exact congrArg (· ++ (contractUriMembers "").tail.flatMap fun m => m.doc.bones) field

theorem uriSection_eq (p : Plan) : p.uriSection =
    { p with contractUri := none }.uriSection ++
      (p.contractUri.map contractUriMembers).getD [] := by
  simp only [uriSection, outline_cons, outline_nil, Part.items, List.append_nil, Option.map_none,
    Option.getD_none, List.append_assoc]
  rfl

/-- The section has the part on the description or not, and must have it with both texts. -/
theorem bones_uriSection (described : uri.isSome = p.contractUri.isSome) :
    ((p.renamed title symbol uri).uriSection.flatMap fun m => m.doc.bones) =
      p.uriSection.flatMap fun m => m.doc.bones := by
  have description : (((uri.map contractUriMembers).getD []).flatMap fun m => m.doc.bones) =
      ((p.contractUri.map contractUriMembers).getD []).flatMap fun m => m.doc.bones := by
    cases own : p.contractUri with
    | none =>
      rw [own, Option.isSome_none, Option.isSome_eq_false_iff, Option.isNone_iff_eq_none]
        at described
      rw [described]
    | some uri' =>
      rw [own, Option.isSome_some, Option.isSome_iff_exists] at described
      obtain ⟨uri, rfl⟩ := described
      exact bones_contractUri uri' uri
  rw [uriSection_eq, uriSection_eq p, List.flatMap_append, List.flatMap_append]
  exact congrArg _ description

/-- Of the sections, those on the constructor and on addresses show the texts that are displayed. -/
theorem body_eq (p : Plan) : p.body =
    (Part.when p.countsSupply (Member.declaration (.attach "Counters" "Counters.Counter"))).items ++
      .declaration (.constructor p.constructor) ::
        ((p.parameterSection ++ p.allowlist ++ p.minting ++ p.activation) ++
          (p.uriSection ++ (p.payout ++ p.royaltySection ++ p.registrySection))) := by
  simp [body, Part.items]

theorem bones_body (described : uri.isSome = p.contractUri.isSome) :
    ((p.renamed title symbol uri).body.flatMap fun m => m.doc.bones) =
      p.body.flatMap fun m => m.doc.bones := by
  have constructor : (Member.declaration (.constructor
      (p.renamed title symbol uri).constructor)).doc.bones =
        (Member.declaration (.constructor p.constructor)).doc.bones :=
    p.bones_constructor title symbol uri
  have description := p.bones_uriSection title symbol uri described
  rw [body_eq, body_eq p]
  simp only [List.flatMap_append, List.flatMap_cons, constructor, description]
  rfl

/-- The name of the contract is the one place where the title is not in a literal. -/
theorem bones_program (name : Text.contractName title = p.contractName)
    (described : uri.isSome = p.contractUri.isSome) :
    (p.renamed title symbol uri).program.doc.bones = p.program.doc.bones := by
  have contract : (p.renamed title symbol uri).contract.doc.bones = p.contract.doc.bones :=
    Contract.bones_body name rfl (p.bones_body title symbol uri described)
  have items (p : Plan) : (p.program.body.flatMap fun i => i.doc.bones) =
      ((p.registryContracts.map Item.contract).flatMap fun i => i.doc.bones) ++
        (p.contract.doc.bones ++ (Item.comment (.note Product.attribution)).doc.bones) := by
    simp [program, Part.items, Item.doc]
  have parts (p : Plan) : p.program.doc.bones =
      p.program.preamble.flatMap Doc.bones ++ p.program.body.flatMap fun i => i.doc.bones :=
    p.program.gather_doc _
  rw [parts, parts p, items, items p, contract]
  rfl

end Plan

namespace Settings

/-- The settings with other texts to display. -/
def showing (s : Settings) (title symbol : String) (uri : Option String) : Settings :=
  { s with tokenName := title, symbol := symbol, contractUri := uri }

/-- Other texts to display change nothing but literals and blanks, if the title still makes the same
name and there is still a description of the contract or still none. No literal is left open. -/
theorem skeleton_showing {s : Settings} (plain : s.Plain) {title : String}
    (name : contractName title = contractName s.tokenName) (symbol : String)
    {uri : Option String} (described : (content? uri).isSome = (content? s.contractUri).isSome) :
    skeleton (s.showing title symbol uri).source.toList = skeleton s.source.toList ∧
      Quoting.code.run (s.showing title symbol uri).source.toList = .code := by
  have closed {s : Settings} (plain : s.Plain) (piece : Piece) (mem : piece ∈ s.program.pieces) :
      closesLiterals piece.2 = true := by
    have sound := Plan.sound_program plain.plan piece mem
    rw [isSound, Bool.and_eq_true] at sound
    exact sound.2
  have plain' : (s.showing title symbol uri).Plain :=
    ⟨plain.names, plain.receivers, plain.allowances⟩
  obtain ⟨same, ends⟩ := Doc.skeleton_render (closed plain') pageWidth
  obtain ⟨own, -⟩ := Doc.skeleton_render (closed plain) pageWidth
  refine ⟨?_, ends⟩
  have bones := s.plan.bones_program title symbol (content? uri) name described
  exact (same.trans bones).trans own.symm

def sampleDisplay : Settings :=
  { blank with
    tokenName := "Tangle"
    symbol := "TGL"
    contractUri := some "https://example.com/contract"
    parameters := [⟨"size", .uint8⟩] }

/-- A title, a symbol and a description that look like code. -/
theorem skeleton_sampleDisplay :
    sampleDisplay.Plain ∧
      skeleton
          (sampleDisplay.showing "1 \"\\Tan\\\"\ngle" "\") \x7b" (some "\n\";")).source.toList =
        skeleton sampleDisplay.source.toList := by
  have plain : sampleDisplay.Plain := ⟨by decide, nofun, nofun⟩
  exact ⟨plain, (skeleton_showing plain (by decide) _ (by decide)).1⟩

end Settings

end Mintage
