import Wiring.Proofs.Config.Access

/-!
# Route sets

The route set of a completed handler has each of the handler's routes, under the route type and the
message type name that the route is about. None is left out because something about it is not known,
and none takes the place of another: a handler with such routes has no route set.
-/

namespace Wiring.Config

/-- Each of a list of items is of one route type. -/
theorem RouteType.length_flatMap_filter {α : Type} (f : α → RouteType) (l : List α) :
    (all.flatMap fun t ↦ l.filter fun a ↦ f a = t).length = l.length := by
  induction l with
  | nil => rfl
  | cons a l ih =>
    rw [List.length_cons, ← ih]
    cases h : f a <;> simp [all, h] <;> omega

/-- The route under what it is about. -/
def Route.keyed (r : Route) : Option KeyedRoute := r.key.map fun about ↦ ⟨about, r⟩

theorem Route.keyed_eq_some_iff {r : Route} {k : KeyedRoute} :
    r.keyed = some k ↔ k.route = r ∧ r.key = some k.about := by
  obtain ⟨about, route⟩ := k
  cases h : r.key <;> simp [keyed, h, and_comm, eq_comm]

namespace RouteSet

/-- Routes are filed one after another under what they are about. -/
theorem catalogue_ofRoutes (routes : List Route) :
    (ofRoutes routes).catalogue = .ofList (routes.filterMap Route.keyed) := by
  have hfoldl (add : RouteSet → Route → RouteSet)
      (hadd : ∀ s r, (add s r).catalogue = r.keyed.toList.foldl .file s.catalogue) (s : RouteSet) :
      (routes.foldl add s).catalogue =
        (routes.filterMap Route.keyed).foldl .file s.catalogue := by
    induction routes generalizing s with
    | nil => rfl
    | cons r rest ih =>
      rw [List.foldl_cons, ih, hadd]
      cases h : r.keyed <;> simp [h]
  apply hfoldl
  intro s r
  cases h : r.key <;> simp [Route.keyed, h, insert]

variable {routes : List Route} {t : RouteType} {name : String}

section Distinct

variable (hdistinct : (routes.filterMap Route.key).Nodup)
include hdistinct

/-- If no two routes are about the same, the set has all that are about something. -/
theorem toList_ofRoutes_perm :
    (ofRoutes routes).toList.Perm (routes.filterMap Route.keyed) := by
  have hkeys : (routes.filterMap Route.keyed).map Keyed.key = routes.filterMap Route.key := by
    rw [List.map_filterMap]
    apply List.filterMap_congr
    intro r _
    cases h : r.key <;> simp [Route.keyed, h, Keyed.key]
  unfold toList
  rw [catalogue_ofRoutes]
  apply Catalogue.ofList_perm
  rwa [hkeys]

theorem mem_toList_ofRoutes_iff {k : KeyedRoute} :
    k ∈ (ofRoutes routes).toList ↔ k.route ∈ routes ∧ k.route.key = some k.about := by
  rw [(toList_ofRoutes_perm hdistinct).mem_iff, List.mem_filterMap]
  simp only [Route.keyed_eq_some_iff]
  exact ⟨fun ⟨r, hr, hk, hkey⟩ ↦ hk ▸ ⟨hr, hkey⟩, fun ⟨hr, hkey⟩ ↦ ⟨k.route, hr, rfl, hkey⟩⟩

/-- What is found in the set is the route of the type for the message type name. -/
theorem get?_ofRoutes_eq_some_iff {r : Route} : (ofRoutes routes).get? t name = some r ↔
    r ∈ routes ∧ r.routeType = some t ∧ r.messageTypeName = some name := by
  have hfind (k : KeyedRoute) : (ofRoutes routes).catalogue.find? ⟨t, name⟩ = some k ↔
      (k.route ∈ routes ∧ k.route.key = some k.about) ∧ k.about = ⟨t, name⟩ :=
    (Catalogue.find?_eq_some_iff RouteKey.lt_irrefl).trans
      (and_congr_left fun _ ↦ mem_toList_ofRoutes_iff hdistinct)
  simp only [get?, Option.map_eq_some_iff, hfind]
  constructor
  · rintro ⟨⟨about, r⟩, ⟨⟨hr, hkey⟩, rfl⟩, rfl⟩
    exact ⟨hr, Route.key_eq_some_iff.mp hkey⟩
  · rintro ⟨hr, hkey⟩
    exact ⟨⟨⟨t, name⟩, r⟩, ⟨⟨hr, Route.key_eq_some_iff.mpr hkey⟩, rfl⟩, rfl⟩

theorem contains_ofRoutes_iff : (ofRoutes routes).contains t name ↔
    ∃ r ∈ routes, r.routeType = some t ∧ r.messageTypeName = some name := by
  simp only [contains, Option.isSome_iff_exists, get?_ofRoutes_eq_some_iff hdistinct]

/-- The names of a type are those of the routes of the type. -/
theorem mem_messageTypeNames_ofRoutes_iff : name ∈ (ofRoutes routes).messageTypeNames t ↔
    ∃ r ∈ routes, r.routeType = some t ∧ r.messageTypeName = some name := by
  simp only [messageTypeNames, List.mem_map, List.mem_filter, decide_eq_true_eq,
    mem_toList_ofRoutes_iff hdistinct, Route.key_eq_some_iff]
  constructor
  · rintro ⟨k, ⟨⟨hr, ht, hname⟩, rfl⟩, rfl⟩
    exact ⟨k.route, hr, ht, hname⟩
  · rintro ⟨r, hr, ht, hname⟩
    exact ⟨⟨⟨t, name⟩, r⟩, ⟨⟨hr, ht, hname⟩, rfl⟩, rfl⟩

/-- The routes come in the order of what they are about. -/
theorem pairwise_routes_ofRoutes : (ofRoutes routes).routes.Pairwise fun r r' ↦
    ∃ about about', r.key = some about ∧ r'.key = some about' ∧ about < about' := by
  unfold RouteSet.routes
  rw [List.pairwise_map]
  apply (ofRoutes routes).catalogue.ascending.imp_of_mem
  intro k k' hk hk' hlt
  exact ⟨k.about, k'.about, ((mem_toList_ofRoutes_iff hdistinct).mp hk).2,
    ((mem_toList_ofRoutes_iff hdistinct).mp hk').2, hlt⟩

/-- If each route is about something, the set has them all. -/
theorem routes_ofRoutes_perm (hkeyed : ∀ r ∈ routes, r.key.isSome) :
    (ofRoutes routes).routes.Perm routes := by
  have hroutes : (routes.filterMap Route.keyed).map KeyedRoute.route = routes := by
    rw [List.map_filterMap]
    conv_rhs => rw [← List.filterMap_some (l := routes)]
    apply List.filterMap_congr
    intro r hr
    obtain ⟨about, h⟩ := Option.isSome_iff_exists.mp (hkeyed r hr)
    simp [Route.keyed, h]
  have hperm := (toList_ofRoutes_perm hdistinct).map KeyedRoute.route
  rwa [hroutes] at hperm

end Distinct

/-- The names of a type come in ascending order. -/
theorem pairwise_messageTypeNames (s : RouteSet) (t : RouteType) :
    (s.messageTypeNames t).Pairwise (· < ·) := by
  unfold messageTypeNames
  rw [List.pairwise_map]
  apply (s.catalogue.ascending.filter _).imp_of_mem
  intro k k' hk hk' hlt
  have ht : k.about.routeType = t := by simpa using (List.mem_filter.mp hk).2
  have ht' : k'.about.routeType = t := by simpa using (List.mem_filter.mp hk').2
  rcases hlt with hlt | ⟨-, hlt⟩
  · exact absurd (ht.trans ht'.symm ▸ hlt) (Nat.lt_irrefl _)
  · exact hlt

/-- Each route of a set is among those of its type. -/
theorem length_flatMap_messageTypeNames (s : RouteSet) :
    (RouteType.all.flatMap s.messageTypeNames).length = s.size := by
  have hnames : RouteType.all.flatMap s.messageTypeNames =
      (RouteType.all.flatMap fun t ↦ s.toList.filter fun k ↦ k.about.routeType = t).map
        fun k ↦ k.about.messageTypeName := List.map_flatMap.symm
  rw [hnames, List.length_map]
  exact RouteType.length_flatMap_filter (fun k : KeyedRoute ↦ k.about.routeType) s.toList

end RouteSet

namespace Handler

open Wiring.Draft (Completes)

variable {h : Handler} {s : RouteSet}

/-- If there is a route set, it is made of the routes of the normalized handler. -/
theorem eq_ofRoutes_of_routeSet (hs : h.routeSet = .ok s) :
    s = .ofRoutes (h.normalize .default).routes := by
  unfold routeSet at hs
  dsimp only at hs
  split at hs
  · cases hs
  · split at hs
    · cases hs
    · exact (Except.ok.inj hs).symm

/-- No two routes of a valid handler are about the same. -/
theorem nodup_keys_of_validate (hvalid : (Component.handler h).validate .default = .ok ()) :
    ((h.normalize .default).routes.filterMap Route.key).Nodup := by
  have hproblems : (h.normalize .default).problems = [] :=
    Component.validate_eq_ok_iff_problems.mp hvalid _ (.self _)
  rw [problems_normalize] at hproblems
  have hroutes := (List.append_eq_nil_iff.mp (List.append_eq_nil_iff.mp hproblems).1).2
  exact ((routeProblems_eq_nil_iff .nil).mp hroutes).2

/-- A completed route that is not in doubt is about something, also once it is normalized. -/
theorem isSome_key_of_completes (hh : Completes (.handler h))
    (hcertain : ∀ r ∈ h.routes, r.fidelity.isImmaculate) :
    ∀ r ∈ (h.normalize .default).routes, r.key.isSome := by
  have hroutes : (h.normalize .default).routes = h.routes.map (Route.normalize .default) := rfl
  rw [hroutes, List.forall_mem_map]
  intro r hr
  have hcompletes : Completes (.route r) := hh.parts _ (by simp [Component.parts, hr])
  have hstated : r.routeType.isSome ∧ r.messageTypeName.isSome :=
    hcompletes.wellFormed.stated (Fidelity.incomplete_of_isImmaculate (hcertain r hr))
  obtain ⟨t, ht⟩ := Option.isSome_iff_exists.mp hstated.1
  obtain ⟨name, hname⟩ := Option.isSome_iff_exists.mp hstated.2
  have hkey : (r.normalize .default).key = r.named.key := rfl
  have hknown : r.key = some ⟨t, name⟩ := Route.key_eq_some_iff.mpr ⟨ht, hname⟩
  rw [hkey, Route.named_eq hcompletes, hknown]
  rfl

/-- The route set of a completed handler has each of its routes, found under the type and the name
that the route is about, and nothing else. The routes come in the order of types and then of names,
and so do the names of each type. -/
theorem routeSet_corresponds (hh : Completes (.handler h)) (hs : h.routeSet = .ok s) :
    let routes := (h.normalize .default).routes
    s.size = routes.length ∧ s.routes.Perm routes ∧
    (∀ r ∈ routes, ∃ t name, s.get? t name = some r) ∧
    (∀ t name r, s.get? t name = some r ↔
      r ∈ routes ∧ r.routeType = some t ∧ r.messageTypeName = some name) ∧
    (∀ t name, s.contains t name ↔
      ∃ r ∈ routes, r.routeType = some t ∧ r.messageTypeName = some name) ∧
    (s.routes.Pairwise fun r r' ↦
      ∃ about about', r.key = some about ∧ r'.key = some about' ∧ about < about') ∧
    (∀ t, (s.messageTypeNames t).Pairwise (· < ·) ∧ ∀ name, name ∈ s.messageTypeNames t ↔
      ∃ r ∈ routes, r.routeType = some t ∧ r.messageTypeName = some name) ∧
    (RouteType.all.flatMap s.messageTypeNames).length = s.size := by
  obtain ⟨hvalid, hcertain⟩ := exists_routeSet_iff.mp ⟨s, hs⟩
  have hdistinct := nodup_keys_of_validate hvalid
  have hkeyed := isSome_key_of_completes hh hcertain
  obtain rfl := eq_ofRoutes_of_routeSet hs
  have hperm := RouteSet.routes_ofRoutes_perm hdistinct hkeyed
  refine ⟨?_, hperm, ?_, ?_, ?_, RouteSet.pairwise_routes_ofRoutes hdistinct, ?_,
    RouteSet.length_flatMap_messageTypeNames _⟩
  · rw [← hperm.length_eq]
    exact (List.length_map _).symm
  · intro r hr
    obtain ⟨about, habout⟩ := Option.isSome_iff_exists.mp (hkeyed r hr)
    refine ⟨about.routeType, about.messageTypeName, ?_⟩
    exact (RouteSet.get?_ofRoutes_eq_some_iff hdistinct).mpr ⟨hr, Route.key_eq_some_iff.mp habout⟩
  · exact fun t name r ↦ RouteSet.get?_ofRoutes_eq_some_iff hdistinct
  · exact fun t name ↦ RouteSet.contains_ofRoutes_iff hdistinct
  · exact fun t ↦ ⟨RouteSet.pairwise_messageTypeNames _ t,
      fun name ↦ RouteSet.mem_messageTypeNames_ofRoutes_iff hdistinct⟩

/-- Steps that draft a process that reminds readers of what they have on loan. -/
def reminderSteps : List Draft.HandlerStep :=
  [.setTypeName "Reminder",
    .identity [.setName "reminder", .setKey "c1f0e2d4-2f0b-4c7a-8a7e-1f6f3b1c9a02"],
    .route [.setRouteType .schedulesTimeout, .setMessageTypeName "Due"],
    .route [.setRouteType .handlesEvent, .setMessageType ⟨"Returned", .event⟩],
    .route [.setMessageTypeName "Lent", .setRouteType .handlesEvent],
    .route [.setRouteType .executesCommand, .setMessageType ⟨"Remind", .command⟩]]

/-- What the steps draft. -/
def reminder : Handler where
  kind := .process
  typeName := some "Reminder"
  identities := [{ name := some "reminder", key := some "c1f0e2d4-2f0b-4c7a-8a7e-1f6f3b1c9a02" }]
  routes := [
    { routeType := some .schedulesTimeout, messageTypeName := some "Due" },
    { routeType := some .handlesEvent
      messageTypeName := some "Returned"
      messageType := some ⟨"Returned", .event⟩ },
    { routeType := some .handlesEvent, messageTypeName := some "Lent" },
    { routeType := some .executesCommand
      messageTypeName := some "Remind"
      messageType := some ⟨"Remind", .command⟩ }]

/-- The process has a set of its four routes, with two events in order, and no command to handle. -/
theorem routeSet_corresponds_reminder : Draft.handler .process reminderSteps = .ok reminder ∧
    ∃ s, reminder.routeSet = .ok s ∧ s.size = 4 ∧
      (∃ r, s.get? .handlesEvent "Lent" = some r) ∧ s.contains .handlesCommand "Remind" = false ∧
      "Lent" ∈ s.messageTypeNames .handlesEvent ∧
      "Returned" ∈ s.messageTypeNames .handlesEvent := by
  have hsteps : Draft.handler .process reminderSteps = .ok reminder := by rfl
  obtain ⟨s, hs⟩ : ∃ s, reminder.routeSet = .ok s := exists_routeSet_iff.mpr
    ⟨Component.validate_eq_ok_iff_findings.mpr (by decide +kernel), by decide⟩
  obtain ⟨hsize, -, -, hget, hcontains, -, hnames, -⟩ := routeSet_corresponds (.handler hsteps) hs
  refine ⟨hsteps, s, hs, hsize, ?_, ?_, ?_, ?_⟩
  · exact ⟨_, (hget _ _ (reminder.routes[2].normalize .default)).mpr (by decide +kernel)⟩
  · rw [← Bool.not_eq_true, hcontains]
    decide +kernel
  · exact ((hnames _).2 _).mpr (by decide +kernel)
  · exact ((hnames _).2 _).mpr (by decide +kernel)

end Handler
end Wiring.Config
