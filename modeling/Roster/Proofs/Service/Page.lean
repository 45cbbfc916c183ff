import Roster.Proofs.Service.Change
import Roster.Proofs.Sorting
import Roster.Service.Query

/-! What is read of a store: how a resource is shown, and the page that a request for a list is
answered by. -/

namespace Roster

namespace Service

variable {s : Service} {st st' : Store} {kind : Kind} {id baseUrl : String} {v : Json}

/-- A resource as it is shown: a user with what it shows of the groups that it is in. -/
def shown (st : Store) (kind : Kind) (baseUrl : String) (v : Json) : Json :=
  match kind, v.identifier? with
  | .user, some id =>
    let memberships := ((st.list .group none).filter (hasMember id)).filterMap (membership? baseUrl)
    if memberships.isEmpty then v else v.put "groups" (.arr memberships)
  | _, _ => v

theorem run_decorate (kind : Kind) (v : Json) (baseUrl : String) (st : Store) :
    (decorate kind v baseUrl).run st = (.ok (shown st kind baseUrl v), st) := by
  cases kind with
  | group => simp [decorate, shown]
  | user =>
    cases hid : v.identifier? with
    | none => simp [decorate, shown, hid]
    | some id =>
      simp only [decorate, shown, hid, Task.run_bind, Task.run_list]
      split_ifs <;> rfl

theorem run_get (h : st.get? kind id = some v) (baseUrl : String) :
    (Service.get kind id baseUrl).run st = (.ok (shown st kind baseUrl v), st) := by
  simp only [Service.get, Task.fetch, Task.run_bind, Task.run_get, h, Task.run_pure, run_decorate]

theorem run_decorateAll (kind : Kind) (baseUrl : String) (vs : List Json) (st : Store) :
    (decorateAll kind baseUrl vs).run st = (.ok (vs.map (shown st kind baseUrl)), st) := by
  induction vs with
  | nil => rfl
  | cons v rest ih =>
    simp only [decorateAll, Task.run_bind, run_decorate, ih]
    rfl

/-- The resources that a list gives when it is not cut into pages. -/
def matching (st : Store) (kind : Kind) (baseUrl : String) (filter : Option Query) : List Json :=
  ((st.list kind none).map (shown st kind baseUrl)).filter fun v => filter.all (·.holds v)

/-- A list is answered by a page of the resources that match, if its parameters can be read. -/
theorem run_query (s : Service) (kind : Kind) (q : ListRequest) (baseUrl : String) (st : Store) :
    (s.query kind q baseUrl).run st =
      (do
        let filter ← s.filterOf kind q
        let key ← s.sortKeyOf kind q
        pure (s.pageOf q (sorted key q.isDescending (matching st kind baseUrl filter))), st) := by
  unfold query
  rw [Task.run_bind, Task.run_ofExcept]
  cases s.filterOf kind q with
  | error e => rfl
  | ok filter =>
    dsimp only
    rw [Task.run_bind, Task.run_ofExcept]
    cases s.sortKeyOf kind q with
    | error e => rfl
    | ok key =>
      simp only [Task.run_bind, Task.run_list, run_decorateAll]
      rfl

/-- Sorting gives none but the given resources. -/
theorem sorted_subset (key : Option SortKey) (descending : Bool) (vs : List Json) :
    sorted key descending vs ⊆ vs := by
  unfold sorted
  split
  · exact List.Subset.refl _
  · split_ifs
    · exact (Sorting.placed_perm _ _).subset
    · exact Sorting.arranged_subset _ _

/-- Each resource of a page is a stored one as it is shown. -/
theorem query_shown {q : ListRequest} {page : Page} (hs : ∀ k, Members.Sorted (st.entries k))
    (h : ((s.query kind q baseUrl).run st).1 = .ok page) {w : Json} (hw : w ∈ page.resources) :
    ∃ id v, st.get? kind id = some v ∧ w = shown st kind baseUrl v := by
  rw [run_query] at h
  obtain ⟨filter, -, h⟩ := bind_eq_ok.mp h
  obtain ⟨key, -, h⟩ := bind_eq_ok.mp h
  cases h
  have hsorted : w ∈ sorted key q.isDescending (matching st kind baseUrl filter) :=
    List.mem_of_mem_drop (List.mem_of_mem_take hw)
  have hmatching := List.mem_of_mem_filter (sorted_subset _ _ _ hsorted)
  obtain ⟨v, hv, rfl⟩ := List.mem_map.mp hmatching
  obtain ⟨id, hid⟩ := (Store.mem_list hs).mp hv
  exact ⟨id, v, hid, rfl⟩

end Service

end Roster
