import Roster.Proofs.Query.Ranked
import Roster.Proofs.Service.Order
import Roster.Proofs.Service.Shown

/-! Pages of a list. Whatever index and count a request gives, it is answered by a window of one
list of matching resources, which are sorted stably. Pages one behind the other give that list. -/

namespace Roster

namespace Service

variable {s : Service} {st : Store} {kind : Kind} {baseUrl : String} {q : ListRequest}
  {filter : Option Query} {key : Option SortKey}

/-! ### The window -/

/-- The index that a page begins at. -/
def firstIndex (startIndex : Int) : Nat := (min (max 1 startIndex) (2 ^ 32 - 1)).toNat

/-- The most resources of a page. -/
def pageSize (p : ProtocolSettings) (count : Option Int) : Nat :=
  min p.maxResults (count.elim p.defaultCount fun n => (max 0 n).toNat)

theorem startOf_eq (q : ListRequest) : startOf q = firstIndex q.startIndex := by
  have hgreatest : greatestIndex = 2 ^ 32 - 1 := rfl
  unfold startOf firstIndex
  omega

theorem sizeOf_eq (hmax : s.protocol.maxResults ≤ greatestIndex) (q : ListRequest) :
    s.sizeOf q = pageSize s.protocol q.count := by
  unfold sizeOf pageSize
  cases q.count with
  | none => exact Nat.min_comm _ _
  | some n =>
    simp only [Option.elim_some]
    omega

theorem pageOf_eq {found : List Json} (hmax : s.protocol.maxResults ≤ greatestIndex)
    (hlength : found.length < 2 ^ 32) (q : ListRequest) : s.pageOf q found =
      ⟨(found.drop (firstIndex q.startIndex - 1)).take (pageSize s.protocol q.count), found.length,
        firstIndex q.startIndex⟩ := by
  rw [pageOf, startOf_eq, sizeOf_eq hmax, Nat.mod_eq_of_lt (show _ < twoTo 32 from hlength)]

/-- Windows of one size, one behind the other, give the front of a list. -/
theorem flatMap_windows {α : Type} (items : List α) (size n : Nat) :
    (List.range n).flatMap (fun i => (items.drop (i * size)).take size) =
      items.take (n * size) := by
  induction n with
  | zero => simp
  | succ n ih =>
    rw [List.range_succ, List.flatMap_append, ih, List.flatMap_singleton, Nat.succ_mul,
      List.take_add]

/-- What a search gives of a list, whatever index and count it asks for: a window of it, and its
length. Pages of one size, one behind the other, give every resource of the list in its place. -/
structure Windows (s : Service) (st : Store) (kind : Kind) (q : ListRequest) (baseUrl : String)
    (found : List Json) : Prop where
  page : ∀ startIndex count,
    (s.query kind { q with startIndex := startIndex, count := count } baseUrl).run st =
      (.ok ⟨(found.drop (firstIndex startIndex - 1)).take (pageSize s.protocol count),
        found.length, firstIndex startIndex⟩, st)
  pages : ∀ count, 1 ≤ pageSize s.protocol count → ∃ pages : List Page,
    List.Forall₂ (fun (i : Nat) page =>
      (s.query kind { q with startIndex := 1 + i * pageSize s.protocol count, count := count }
        baseUrl).run st = (.ok page, st))
      (List.range ((found.length + pageSize s.protocol count - 1) / pageSize s.protocol count))
      pages ∧
    pages.flatMap (·.resources) = found

/-- A list that is answered by its windows is given by pages one behind the other. -/
theorem pages_of_window {found : List Json} {count : Option Int} (hfound : found.length < 2 ^ 32)
    (hwindow : ∀ startIndex,
      (s.query kind { q with startIndex := startIndex, count := count } baseUrl).run st =
        (.ok ⟨(found.drop (firstIndex startIndex - 1)).take (pageSize s.protocol count),
          found.length, firstIndex startIndex⟩, st))
    (hsize : 1 ≤ pageSize s.protocol count) : ∃ pages : List Page,
    List.Forall₂ (fun (i : Nat) page =>
      (s.query kind { q with startIndex := 1 + i * pageSize s.protocol count, count := count }
        baseUrl).run st = (.ok page, st))
      (List.range ((found.length + pageSize s.protocol count - 1) / pageSize s.protocol count))
      pages ∧
    pages.flatMap (·.resources) = found := by
  generalize hk : pageSize s.protocol count = size at *
  refine ⟨(List.range ((found.length + size - 1) / size)).map fun i =>
    ⟨(found.drop (i * size)).take size, found.length, 1 + i * size⟩, ?_, ?_⟩
  · rw [List.forall₂_map_right_iff, List.forall₂_same]
    intro i hi
    -- the pages that are asked for begin within the list, so that no index is cut down
    have hlast : i * size + 1 ≤ found.length := by
      have hnext : (i + 1) * size ≤ found.length + size - 1 :=
        (Nat.le_div_iff_mul_le hsize).mp (List.mem_range.mp hi)
      rw [Nat.succ_mul] at hnext
      omega
    have hfirst : firstIndex (1 + i * size) = 1 + i * size := by
      unfold firstIndex
      omega
    rw [hwindow, hfirst]
    simp
  · rw [List.flatMap_map, flatMap_windows]
    refine List.take_of_length_le ?_
    have hlast := Nat.lt_div_mul_add (a := found.length + size - 1) hsize
    omega

/-- Whatever index and count a search asks for, it is answered by a window of the same list. -/
theorem windows_of_query {found : List Json} (hmax : s.protocol.maxResults ≤ greatestIndex)
    (hf : s.filterOf kind q = .ok filter) (hk : s.sortKeyOf kind q = .ok key)
    (hfound : found = sorted key q.isDescending (matching st kind baseUrl filter))
    (hlength : found.length < 2 ^ 32) : s.Windows st kind q baseUrl found := by
  have hpage (startIndex : Int) (count : Option Int) :
      (s.query kind { q with startIndex := startIndex, count := count } baseUrl).run st =
        (.ok ⟨(found.drop (firstIndex startIndex - 1)).take (pageSize s.protocol count),
          found.length, firstIndex startIndex⟩, st) := by
    have hf' : s.filterOf kind { q with startIndex := startIndex, count := count } = .ok filter :=
      hf
    have hk' : s.sortKeyOf kind { q with startIndex := startIndex, count := count } = .ok key := hk
    rw [run_query, hf', hk', hfound, ← pageOf_eq hmax (hfound ▸ hlength)
      { q with startIndex := startIndex, count := count }]
    rfl
  exact ⟨hpage, fun count hsize =>
    pages_of_window hlength (fun startIndex => hpage startIndex count) hsize⟩

/-! ### Runs -/

theorem Action.timed_of_forall {P : Instant → Prop} (h : ∀ now, P now) (a : Action) :
    a.Timed P := by
  cases a with
  | delete => exact fun n => h _
  | _ => exact h _

theorem sortKeyOf_compile {k : SortKey} (h : s.sortKeyOf kind q = .ok (some k)) :
    ∃ e, SortKey.compile s.registry kind e = .ok k := by
  unfold sortKeyOf at h
  split at h
  · cases h
  · split_ifs at h
    split at h
    · rename_i k' hk
      cases h
      obtain ⟨e, -, he⟩ := bind_eq_ok.mp hk
      exact ⟨e, he⟩
    · cases h

/-- Of the resources that match, a sort key can read every value, if the times in the metadata are
those of years that it can read. -/
theorem matching_readable (hr : s.registry = s.protocol.registry) {actions : List Action}
    {k : SortKey} (hk : s.sortKeyOf kind q = .ok (some k))
    (hclock : k.traits.type = .dateTime → ∀ a ∈ actions, a.Timed Instant.HasYear) :
    ∀ v ∈ matching (s.performAll .empty actions) kind baseUrl filter, k.isReadable v = true := by
  obtain ⟨e, he⟩ := sortKeyOf_compile hk
  have hstamped := performAll_stamped (s := s) (Store.all_empty _) actions
  have hsettled := performAll_settled (s := s) (hr ▸ s.protocol.registry_wellNamed)
    (hr ▸ s.protocol.registry_single) (Store.all_empty _) actions
  have hdated : AllDated (fun now => k.traits.type = .dateTime → now.HasYear)
      (s.performAll .empty actions) := by
    refine performAll_dated (Store.all_empty _) (Store.all_empty _) fun a ha => ?_
    by_cases ht : k.traits.type = .dateTime
    · simpa [ht] using hclock ht a ha
    · exact Action.timed_of_forall (fun now h => absurd h ht) a
  have hplain : ∀ e, Registered s.registry kind e → ∀ a ∈ e.attributes, a.Plain := by
    rw [hr]
    exact fun e hregistered => s.protocol.registered_eq hregistered ▸ enterpriseUser_plain
  intro v hv
  obtain ⟨stored, hmem, rfl⟩ := List.mem_map.mp (List.mem_of_mem_filter hv)
  obtain ⟨id, hid⟩ := (Store.mem_list hstamped.sorted).mp hmem
  exact SortKey.isReadable_compile he (shown_typed hstamped hsettled hdated hplain
    (SortKey.compile_ne_complex he) (fun ht now hnow => hnow ht) hid baseUrl)

/-- The resources of a kind are shown one by one in a list as they are shown when they are read on
their own, in the order of their insertion. -/
theorem performAll_shown (s : Service) (actions : List Action) (kind : Kind) (baseUrl : String) :
    List.Forall₂ (fun id v => (Service.get kind id baseUrl).run (s.performAll .empty actions) =
        (.ok v, s.performAll .empty actions)) (s.inserted kind .empty [] actions)
      (((s.performAll .empty actions).list kind none).map
        (shown (s.performAll .empty actions) kind baseUrl)) := by
  rw [performAll_list]
  have hstored := (performAll_inserted s actions kind).2
  generalize s.inserted kind .empty [] actions = ids at hstored
  have hids : ∀ id ∈ ids, ((s.performAll .empty actions).get? kind id).isSome = true :=
    fun id hid => (hstored id).mp hid
  clear hstored
  induction ids with
  | nil => exact .nil
  | cons id rest ih =>
    obtain ⟨hfirst, hrest⟩ := List.forall_mem_cons.mp hids
    obtain ⟨v, hv⟩ := Option.isSome_iff_exists.mp hfirst
    rw [List.filterMap_cons_some hv, List.map_cons]
    exact .cons (run_get hv baseUrl) (ih hrest)

/-- After changes from the empty store on, a search is answered by windows of one list: that of the
resources that match, sorted stably by the key, of those that are shown when each is read on its own
in the order of their insertion. -/
theorem performAll_windows (s : Service) (hr : s.registry = s.protocol.registry)
    (hmax : s.protocol.maxResults < 2 ^ 32) (actions : List Action) (kind : Kind) (q : ListRequest)
    (baseUrl : String) {filter : Option Query} {key : Option SortKey}
    (hcount : (s.inserted kind .empty [] actions).length < 2 ^ 32)
    (hf : s.filterOf kind q = .ok filter) (hk : s.sortKeyOf kind q = .ok key)
    (hclock : ∀ k ∈ key, k.traits.type = .dateTime → ∀ a ∈ actions, a.Timed Instant.HasYear) :
    ∃ resources found,
      List.Forall₂ (fun id v => (Service.get kind id baseUrl).run (s.performAll .empty actions) =
        (.ok v, s.performAll .empty actions)) (s.inserted kind .empty [] actions) resources ∧
      Sorting.Stable (fun a b => key.any (precedes · q.isDescending a b))
        (resources.filter fun v => filter.all (·.holds v)) found ∧
      s.Windows (s.performAll .empty actions) kind q baseUrl found := by
  have hshown := performAll_shown s actions kind baseUrl
  have hstable : Sorting.Stable (fun a b => key.any (precedes · q.isDescending a b))
      (matching (s.performAll .empty actions) kind baseUrl filter)
      (sorted key q.isDescending
        (matching (s.performAll .empty actions) kind baseUrl filter)) := by
    refine sorted_stable key q.isDescending fun k hmem => ?_
    cases hmem
    exact matching_readable hr hk (hclock k rfl)
  have hlength : (matching (s.performAll .empty actions) kind baseUrl filter).length < 2 ^ 32 :=
    (List.length_filter_le _ _).trans_lt (hshown.length_eq ▸ hcount)
  have hgreatest : s.protocol.maxResults ≤ greatestIndex := Nat.le_pred_of_lt hmax
  exact ⟨_, _, hshown, hstable, windows_of_query hgreatest hf hk rfl
    (hstable.perm.length_eq ▸ hlength)⟩

/-- The body of a user with a title. -/
def titled (userName title : String) : Json :=
  .obj [("schemas", .arr [.str Urn.user]), ("title", .str title), ("userName", .str userName)]

/-- Three users whose titles differ in letter case at most, and one without a title. -/
def titleActions : List Action :=
  [ .create .user (titled "bj" "Guide") "" "u1" default,
    .create .user (.obj [("schemas", .arr [.str Urn.user]), ("userName", .str "jo")]) "" "u2"
      default,
    .create .user (titled "al" "GUIDE") "" "u3" default,
    .create .user (titled "bo" "guide") "" "u4" default ]

/-- The users whose names begin so, by their titles from the last one on. -/
def titleSearch : ListRequest :=
  ⟨some "userName sw \"b\" or userName eq \"jo\"", 1, none, some "title", some "descending", none,
    none⟩

theorem performAll_windows_titles :
    spelledService.inserted .user .empty [] titleActions = ["u1", "u2", "u3", "u4"] ∧
      ∃ filter key resources found, spelledService.filterOf .user titleSearch = .ok filter ∧
        spelledService.sortKeyOf .user titleSearch = .ok key ∧
        List.Forall₂ (fun id v => (Service.get .user id "").run
            (spelledService.performAll .empty titleActions) =
          (.ok v, spelledService.performAll .empty titleActions))
          (spelledService.inserted .user .empty [] titleActions) resources ∧
        Sorting.Stable (fun a b => key.any (precedes · titleSearch.isDescending a b))
          (resources.filter fun v => filter.all (·.holds v)) found ∧
        spelledService.Windows (spelledService.performAll .empty titleActions) .user titleSearch ""
          found := by
  have hids : spelledService.inserted .user .empty [] titleActions = ["u1", "u2", "u3", "u4"] := by
    decide +kernel
  have hfilter : (spelledService.filterOf .user titleSearch).toBool = true := by decide +kernel
  have hkey : (spelledService.sortKeyOf .user titleSearch).toBool = true := by decide +kernel
  obtain ⟨filter, hf⟩ := exists_ok hfilter
  obtain ⟨key, hk⟩ := exists_ok hkey
  have hclock : ∀ a ∈ titleActions, a.Timed Instant.HasYear := by
    have hdefault : (default : Instant).HasYear := by decide +kernel
    simp [titleActions, Action.Timed, hdefault]
  have hcount : (spelledService.inserted .user .empty [] titleActions).length < 2 ^ 32 := by
    rw [hids]
    decide
  obtain ⟨resources, found, hshown, hstable, hwindows⟩ := performAll_windows spelledService rfl
    (by decide) titleActions .user titleSearch "" hcount hf hk fun _ _ _ => hclock
  exact ⟨hids, filter, key, resources, found, hf, hk, hshown, hstable, hwindows⟩

end Service

end Roster
