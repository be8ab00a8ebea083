import ResponseModels.Proofs.Coverage
import ResponseModels.Proofs.Run.Contexts

/-! The interfaces that are kept can be relied on. The key of a node tells the node, whatever types
it was collected at and whichever request it came from. So the interface that is kept for the key
is the one that would be made for the node without it, be it that nothing is kept at all. -/
namespace ResponseModels

open GraphQL

variable {task : Task} {requests : List Request} {session : Session} {path : ModelPath}
  {tree : FragmentTree} {model : InterfaceModel}

/-- Interfaces that the session keeps too. -/
def Session.Caches (session : Session) (kept : List (OriginKey × InterfaceModel)) : Prop :=
  ∀ key model, kept.lookup key = some model → session.interface? key = some model

/-- With part of the kept interfaces only, the interface of a node is made as it is kept. What is
missing on the way is filled in, and nothing else changes. -/
def Session.Remakes (task : Task) (session : Session) (path : ModelPath) (tree : FragmentTree) :
    Prop :=
  ∀ {model kept}, session.interface? tree.key = some model → session.Caches kept →
    ∃ refilled, session.Caches refilled ∧
      (∀ key found, kept.lookup key = some found → refilled.lookup key = some found) ∧
      refilled.lookup tree.key = some model ∧
      (Build.synthesize task path tree).Yields { session with interfaces := kept } model
        { session with interfaces := refilled }

namespace Session

theorem Caches.cons {kept : List (OriginKey × InterfaceModel)} (h : session.Caches kept)
    {key : OriginKey} (hFound : session.interface? key = some model) :
    session.Caches ((key, model) :: kept) := by
  intro other found hLookup
  rw [List.lookup_cons] at hLookup
  split at hLookup
  · rename_i hSame
    rw [eq_of_beq hSame, hFound, hLookup]
  · exact h other found hLookup

/-- The interfaces of all children are made as they are kept. -/
theorem remakes_each {trees : List FragmentTree} {bases : List (InterfaceModel × List MergedField)}
    (hEach : ∀ tree ∈ trees, session.Remakes task path tree)
    (hBases : List.Forall₂ (fun child base => session.interface? child.key = some base.1 ∧
      task.treeFields path child = .ok base.2) trees bases)
    {kept : List (OriginKey × InterfaceModel)} (hKept : session.Caches kept) :
    ∃ refilled, session.Caches refilled ∧
      (∀ key found, kept.lookup key = some found → refilled.lookup key = some found) ∧
      List.Forall₂ (fun child base => refilled.lookup child.key = some base.1 ∧
        task.treeFields path child = .ok base.2) trees bases ∧
      (Build.synthesizeEach task path trees).Yields { session with interfaces := kept } bases
        { session with interfaces := refilled } := by
  induction hBases generalizing kept with
  | nil =>
      refine ⟨kept, hKept, fun _ _ h => h, .nil, ?_⟩
      rw [Build.synthesizeEach, Build.yields_pure]
      exact ⟨rfl, rfl⟩
  | @cons tree base rest others hBase _ ih =>
      obtain ⟨hTree, hRest⟩ := List.forall_mem_cons.mp hEach
      obtain ⟨middle, hMiddle, hGrows, hFound, hFirst⟩ := hTree hBase.1 hKept
      obtain ⟨refilled, hRefilled, hGrows', hOthers, hYields⟩ := ih hRest hMiddle
      refine ⟨refilled, hRefilled, fun key found h => hGrows' key found (hGrows key found h),
        .cons ⟨hGrows' _ _ hFound, hBase.2⟩ hOthers, ?_⟩
      exact Build.yields_synthesizeEach_cons.mpr
        ⟨base.1, _, base.2, others, hFirst, hBase.2, hYields, rfl⟩

end Session

theorem Coherent.remakes (hSetting : task.toSetting.Admissible)
    (h : Coherent task requests session) (hTree : Arises task.toSetting session tree) :
    session.Remakes task path tree := by
  induction tree using FragmentTree.induct with
  | node tree ih =>
      intro model kept hFound hKept
      cases hLookup : kept.lookup tree.key with
      | some found =>
          have hSame := hKept tree.key found hLookup
          rw [hFound] at hSame
          cases hSame
          exact ⟨kept, hKept, fun _ _ h => h, hLookup,
            Build.yields_synthesize.mpr (.inl ⟨hLookup, rfl⟩)⟩
      | none =>
          obtain ⟨_, _, hAssembled⟩ := h.assembled_of_arises hSetting hTree hFound path
          obtain ⟨refilled, hRefilled, hGrows, hChildren, hEach⟩ := Session.remakes_each
            (fun child hChild => ih child hChild (hTree.within (.inner hChild (.self _))))
            hAssembled.children hKept
          -- What the fields refer to was asked for before, so nothing is asked for again.
          have hAsked : ∀ origin name, session.requested.lookup origin = some name →
              { session with interfaces := refilled }.requested.lookup origin = some name :=
            fun _ _ h => h
          have hAgain : Assembled task { session with interfaces := refilled } path tree _ _ model :=
            ⟨hAssembled.merges, hChildren, hAssembled.declares.imp fun _ _ h => h.mono hAsked,
              hAssembled.type, hAssembled.bases, hAssembled.name⟩
          refine ⟨(tree.key, model) :: refilled, hRefilled.cons hFound, ?_,
            List.lookup_cons_self, ?_⟩
          · intro key found hKnown
            rw [List.lookup_cons]
            split
            · rename_i hSame
              rw [eq_of_beq hSame, hLookup] at hKnown
              cases hKnown
            · exact hGrows key found hKnown
          · exact Build.yields_synthesize.mpr (.inr ⟨hLookup, _, _, hEach,
              hAgain.yields (h.registered tree.key model hFound)⟩)

/-- In a reachable session the key of a node tells its kind, name, condition, selections and
children. An interface that is kept for the key of a node is found for it without any change to the
session, and it is the one that is made for the node when any part of the kept interfaces is left
out, this one or all of them. -/
theorem kept_interface_is_remade {task : Task} (hSetting : task.toSetting.Admissible)
    {session : Session} (hReachable : session.Reachable task) :
    (∀ tree other, Arises task.toSetting session tree → Arises task.toSetting session other →
      tree.key = other.key → tree.kind = other.kind ∧ tree.name = other.name ∧
        tree.condition = other.condition ∧ tree.selections = other.selections ∧
        tree.children = other.children) ∧
    ∀ path tree model, Arises task.toSetting session tree →
      session.interface? tree.key = some model →
      (Build.synthesize task path tree).Yields session model session ∧
      ∀ kept, session.Caches kept → ∃ refilled,
        (Build.synthesize task path tree).Yields { session with interfaces := kept } model
          { session with interfaces := refilled } := by
  obtain ⟨requests, hCoherent⟩ := hReachable.coherent hSetting
  refine ⟨fun tree other hTree hOther hKey => ?_, fun path tree model hTree hFound =>
    ⟨Build.yields_synthesize.mpr (.inl ⟨hFound, rfl⟩), fun kept hKept => ?_⟩⟩
  · rw [hCoherent.tree_eq hSetting hTree hOther hKey]
    exact ⟨rfl, rfl, rfl, rfl, rfl⟩
  · obtain ⟨refilled, _, _, _, hYields⟩ := hCoherent.remakes hSetting hTree hFound hKept
    exact ⟨refilled, hYields⟩

/-- The fragment for titles as it is collected among the hits for one type. -/
def headingFor (type : String) : Option FragmentTree := do
  let scope ← pagesTask.schema.type? "Hit"
  let type ← pagesTask.schema.type? type
  let collected ← (pagesTask.collectIn scope type [.spread ⟨2, 1⟩ "Heading"]
    (.root "Found")).toOption
  collected.fragments.head?

theorem arises_of_headingFor {type : String} {tree : FragmentTree}
    (h : headingFor type = some tree) (session : Session) :
    Arises pagesTask.toSetting session tree := by
  simp only [headingFor, Option.bind_eq_bind, Option.bind_eq_some_iff,
    Outcome.toOption_eq_some_iff] at h
  obtain ⟨scope, hScope, type, _, collected, hCollected, hHead⟩ := h
  have hNodes : [Selection.spread ⟨2, 1⟩ "Heading"] ⊆ pagesTask.document.nodes := by
    decide +kernel
  have hKnows := startable_pagesTask.setting.knows_of_type? hScope
  exact .collected hKnows hNodes hCollected (List.mem_of_head? hHead) (.self tree)

/-- The fragment for titles is collected for books and for films, and one interface is kept for it.
It is made again for the fragment of the films when nothing is kept. -/
theorem heading_of_films_is_remade :
    ∃ (session : Session) (book film : FragmentTree) (model : InterfaceModel)
      (refilled : List (OriginKey × InterfaceModel)), session.Reachable pagesTask ∧
      headingFor "Book" = some book ∧ headingFor "Film" = some film ∧ book.key = film.key ∧
      session.interface? book.key = some model ∧ model.name = "IHeading" ∧
      book.selections = film.selections ∧
      (Build.synthesize pagesTask (.root "Film") film).Yields { session with interfaces := [] }
        model { session with interfaces := refilled } := by
  have hRun : ((Stage.after? pagesTask (.initial 9) pagesTask.document.operations 4).bind
      fun stage => (headingFor "Book").bind fun book => (headingFor "Film").bind fun film =>
        (stage.2.2.interface? book.key).map fun model =>
          (decide (book.key = film.key), model.name)) = some (true, "IHeading") := by
    decide +kernel
  obtain ⟨⟨_, _, session⟩, hAfter, hRun⟩ := Option.bind_eq_some_iff.mp hRun
  obtain ⟨book, hBook, hRun⟩ := Option.bind_eq_some_iff.mp hRun
  obtain ⟨film, hFilm, hRun⟩ := Option.bind_eq_some_iff.mp hRun
  obtain ⟨model, hFound, hComputed⟩ := Option.map_eq_some_iff.mp hRun
  obtain ⟨hSame, hName⟩ := Prod.mk.inj hComputed
  have hKey : book.key = film.key := of_decide_eq_true hSame
  have hReachable := (Stage.of_after? hAfter).reachable startable_pagesTask
  obtain ⟨hTells, hRemade⟩ := kept_interface_is_remade startable_pagesTask.setting hReachable
  have hArises := arises_of_headingFor hBook session
  have hArises' := arises_of_headingFor hFilm session
  obtain ⟨refilled, hYields⟩ :=
    (hRemade (.root "Film") film model hArises' (hKey ▸ hFound)).2 [] nofun
  exact ⟨session, book, film, model, refilled, hReachable, hBook, hFilm, hKey, hFound, hName,
    (hTells book film hArises hArises' hKey).2.2.2.1, hYields⟩

end ResponseModels
