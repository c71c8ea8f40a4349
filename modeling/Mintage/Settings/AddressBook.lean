/-! Addresses by network, in the order of the networks' names. -/
namespace Mintage

structure AddressBook where
  entries : List (String × String)
  ascending : entries.Pairwise (fun a b => a.1 < b.1)

namespace AddressBook

instance : Inhabited AddressBook := ⟨[], .nil⟩

def empty : AddressBook := ⟨[], .nil⟩

/-- Enters a pair at its place; a pair with the same name is replaced. -/
def enter (network address : String) : List (String × String) → List (String × String)
  | [] => [(network, address)]
  | entry :: rest =>
    if network < entry.1 then (network, address) :: entry :: rest
    else if network = entry.1 then (network, address) :: rest
    else entry :: enter network address rest

theorem eq_or_mem_of_mem_enter {network address : String} {entries : List (String × String)}
    {entry : String × String} (h : entry ∈ enter network address entries) :
    entry = (network, address) ∨ entry ∈ entries := by
  induction entries with
  | nil => simpa [enter] using h
  | cons first rest ih =>
    simp only [enter] at h
    split at h
    · simpa using h
    split at h
    · rcases List.mem_cons.1 h with h | h
      · exact .inl h
      · exact .inr (List.mem_cons_of_mem _ h)
    · rcases List.mem_cons.1 h with h | h
      · exact .inr (h ▸ List.mem_cons_self)
      · exact (ih h).imp_right (List.mem_cons_of_mem _)

theorem pairwise_enter (network address : String) {entries : List (String × String)}
    (ascending : entries.Pairwise fun a b => a.1 < b.1) :
    (enter network address entries).Pairwise fun a b => a.1 < b.1 := by
  induction entries with
  | nil => simp [enter]
  | cons first rest ih =>
    have ⟨before, later⟩ := List.pairwise_cons.1 ascending
    simp only [enter]
    split
    · rename_i lower
      refine List.pairwise_cons.2 ⟨fun entry mem => ?_, ascending⟩
      rcases List.mem_cons.1 mem with rfl | mem
      · exact lower
      · exact String.lt_trans lower (before entry mem)
    split
    · rename_i same
      exact List.pairwise_cons.2 ⟨fun entry mem => same ▸ before entry mem, later⟩
    · rename_i notLower notSame
      refine List.pairwise_cons.2 ⟨fun entry mem => ?_, ih later⟩
      rcases eq_or_mem_of_mem_enter mem with rfl | mem
      · refine Decidable.byContradiction fun notHigher => notSame ?_
        exact String.le_antisymm (String.not_lt.1 notHigher) (String.not_lt.1 notLower)
      · exact before entry mem

def insert (book : AddressBook) (network address : String) : AddressBook :=
  ⟨enter network address book.entries, pairwise_enter network address book.ascending⟩

end AddressBook

end Mintage
