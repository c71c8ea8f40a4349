import Mintage.Settings.Basic
import Mintage.Text.Blank

/-! How the proceeds are shared. -/
namespace Mintage

inductive Recipient where
  | destination (number : Nat) (address : String)
  | owner
  deriving DecidableEq, Repr

structure Share where
  recipient : Recipient
  percentage : Nat
  deriving DecidableEq, Repr

/-- The shares of what is left in percent. Destinations take what they ask for as long as there is
some, those that receive some are numbered from `number`, and the owner takes the rest. -/
def sharesOf (number left : Nat) : List Payout → List Share
  | [] => if left = 0 then [] else [⟨.owner, left⟩]
  | payout :: payouts =>
    let percentage := min payout.percentage.toNat left
    if percentage = 0 then sharesOf number left payouts
    else
      ⟨.destination number (Text.trim payout.address), percentage⟩ ::
        sharesOf (number + 1) (left - percentage) payouts

def Settings.shares (s : Settings) : List Share := sharesOf 1 100 s.payouts

end Mintage
