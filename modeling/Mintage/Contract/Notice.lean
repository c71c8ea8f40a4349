import Mintage.Contract.Plan
import Mintage.Text.Quoted

/-! Notices about the work: above all on settings that are ignored. -/
namespace Mintage

inductive Level where
  | warning
  | info
  | debug
  deriving DecidableEq, Repr

inductive Detail where
  | text (s : String)
  | flag (b : Bool)
  deriving DecidableEq, Repr

inductive Notice where
  | priceIgnored (price : String)
  | royaltyIgnored (royalty : String)
  | templateIgnored (template : String) (error : Template.Error)
  | assembling (contract : String) (delegated earns royalties : Bool)
  | enumerableIgnored
  | registryIgnored
  | baseUri (uri : String)
  deriving DecidableEq, Repr

namespace Notice

def level : Notice → Level
  | assembling .. => .debug
  | baseUri _ => .info
  | _ => .warning

def message : Notice → String
  | priceIgnored _ => "ignoring unparsable price, minting will be free"
  | royaltyIgnored _ => "ignoring invalid royalty percentage"
  | templateIgnored .. => "falling back to the default token URI shape"
  | assembling .. => "assembling contract"
  | enumerableIgnored => "delegated contracts cannot use the enumerable extension, ignoring it"
  | registryIgnored => "proxy approval is not supported by delegated contracts, skipping"
  | baseUri _ => "constructor argument customBaseURI_"

def details : Notice → List (String × Detail)
  | priceIgnored price => [("price", .text price)]
  | royaltyIgnored royalty => [("royalty", .text royalty)]
  | templateIgnored template error =>
    [("template", .text template), ("error", .text error.message)]
  | assembling contract delegated earns royalties =>
    [("contract", .text contract), ("delegated", .flag delegated), ("has_withdraw", .flag earns),
      ("has_royalties", .flag royalties)]
  | enumerableIgnored => []
  | registryIgnored => []
  | baseUri uri => [("custom_base_uri", .text uri)]

/-- The notice on one line. -/
def line (n : Notice) : String :=
  let level := match n.level with
    | .warning => "WARN "
    | .info => "INFO "
    | .debug => "DEBUG "
  let detail : String × Detail → String
    | (name, .text s) => " " ++ name ++ "=" ++ Text.quoted s
    | (name, .flag b) => " " ++ name ++ "=" ++ toString b
  level ++ n.message ++ String.join (n.details.map detail)

end Notice

namespace Settings

variable (s : Settings)

/-- A price of zero is a price. -/
def priceNotice? : Option Notice :=
  (s.priceText?.filter fun text => (readPrice? text).isNone).map .priceIgnored

def royaltyNotice? : Option Notice :=
  if s.royalty?.isSome then none else s.royaltyText?.map .royaltyIgnored

def templateNotice? : Option Notice :=
  match Template.parseUri s.tokenUri with
  | .ok _ => none
  | .error error => some (.templateIgnored s.tokenUri error)

/-- The notices of writing the contract, in their order. -/
def notices : List Notice :=
  let p := s.plan
  s.priceNotice?.toList ++ s.royaltyNotice?.toList ++ s.templateNotice?.toList ++
    [.assembling p.contractName p.isDelegated p.earns p.ownRoyalty.isSome] ++
    (if s.delegated && s.enumerable then [.enumerableIgnored] else []) ++
    (if s.delegated && s.registry.isSet then [.registryIgnored] else [])

end Settings

end Mintage
