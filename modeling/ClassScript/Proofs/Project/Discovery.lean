/-
  File:      ClassScript/Proofs/Project/Discovery.lean
  Subject:   The sources that arguments stand for: all of them, once, in order.

  What patterns and walks yield is taken as it is: all of this holds for any
  finder. Of the paths that an argument yields, the sources that are not
  excluded are wanted. They are ordered by path, argument by argument, and a
  path that came up before is dropped. So a path has its place where the first
  argument yields it, and arguments that yield nothing new could as well be
  missing.

  The induction is over the arguments, the last one first to go: what it adds
  is in the order of paths, and comes behind all that was there.

  * `yields`, `isWanted`: what an argument yields, and what is wanted of it;
  * `run_discover`: the sources of arguments that all yield something;
  * `ComesBefore`, `pairwise_comesBefore`: the order of sources;
  * `run_discover_insert`: arguments without new sources;
  * `discovery_laws`: the laws of discovery.
-/
import Mathlib.Data.List.Forall2
import ClassScript.Project.Discovery
import ClassScript.Proofs.FileSystem.Disk
import ClassScript.Proofs.Text.Spellings

namespace ClassScript

open FilePath (firstSpellings occurs)

/-! ## 1. Sources in order -/

namespace FilePath

variable {p q : FilePath} {paths : List FilePath}

theorem notAfter_eq_isLE (p q : FilePath) : p.notAfter q = (p.order q).isLE := by
  unfold notAfter
  cases p.order q <;> rfl

theorem notAfter_trans (p q r : FilePath) (h : p.notAfter q = true) (h' : q.notAfter r = true) :
    p.notAfter r = true := by
  rw [notAfter_eq_isLE] at h h' ⊢
  exact Std.TransCmp.isLE_trans h h'

theorem notAfter_total (p q : FilePath) : (p.notAfter q || q.notAfter p) = true := by
  have hswap : q.order p = (p.order q).swap := Std.OrientedCmp.eq_swap
  rw [notAfter_eq_isLE, notAfter_eq_isLE, hswap]
  cases p.order q <;> rfl

/-- Of different paths in order, the first one comes before the second. -/
theorem order_eq_lt (h : p.notAfter q = true) (hne : p.same q = false) : p.order q = .lt := by
  rw [notAfter_eq_isLE] at h
  cases horder : p.order q with
  | lt => rfl
  | eq =>
    rw [order_eq_eq_iff.mp horder] at hne
    cases hne
  | gt =>
    rw [horder] at h
    cases h

end FilePath

theorem sortPaths_perm (paths : List FilePath) : (sortPaths paths).Perm paths :=
  List.mergeSort_perm paths _

theorem pairwise_sortPaths (paths : List FilePath) :
    (sortPaths paths).Pairwise fun p q => p.notAfter q = true :=
  List.pairwise_mergeSort FilePath.notAfter_trans FilePath.notAfter_total paths

/-- Equal paths keep their order. -/
theorem filter_same_sortPaths (paths : List FilePath) (p : FilePath) :
    (sortPaths paths).filter (·.same p) = paths.filter (·.same p) := by
  have hequal : (paths.filter (·.same p)).Pairwise fun q r => q.notAfter r = true := by
    refine List.pairwise_of_forall_mem_list fun q hq r hr => ?_
    have hq := (List.mem_filter.mp hq).2
    have hr := (List.mem_filter.mp hr).2
    have hsame : q.same r = true := by rw [FilePath.same_congr hq, FilePath.same_comm, hr]
    rw [FilePath.notAfter_eq_isLE, FilePath.order_eq_eq_iff.mpr hsame]
    rfl
  have hsub : (paths.filter (·.same p)).Sublist (sortPaths paths) :=
    List.sublist_mergeSort FilePath.notAfter_trans FilePath.notAfter_total hequal
      List.filter_sublist
  have hfilter := hsub.filter (·.same p)
  rw [List.filter_filter] at hfilter
  simp only [Bool.and_self] at hfilter
  exact (hfilter.eq_of_length ((sortPaths_perm paths).filter _).length_eq.symm).symm

theorem find?_filter_sortPaths (keep : FilePath → Bool) (paths : List FilePath) (p : FilePath) :
    ((sortPaths paths).filter keep).find? (·.same p) = (paths.filter keep).find? (·.same p) := by
  rw [← List.head?_filter, ← List.head?_filter, List.filter_filter, List.filter_filter]
  have hswap (l : List FilePath) : l.filter (fun q => q.same p && keep q) =
      (l.filter (·.same p)).filter keep := by
    rw [List.filter_filter]
    exact List.filter_congr fun q _ => Bool.and_comm _ _
  rw [hswap, hswap, filter_same_sortPaths]

/-- Dropping paths that came up before leaves the first spelling of each. -/
theorem loop_eq_distinctPaths (seen paths : List FilePath) :
    List.eraseDupsBy.loop FilePath.same paths seen = seen.reverse ++ distinctPaths seen paths := by
  induction paths generalizing seen with
  | nil => exact (List.append_nil _).symm
  | cons p paths ih =>
    have hseen : seen.any p.same = seen.any (·.same p) :=
      congrArg seen.any (funext fun q => FilePath.same_comm p q)
    rw [List.eraseDupsBy.loop, distinctPaths, hseen]
    cases seen.any (·.same p) with
    | true => exact ih seen
    | false =>
      rw [ih (p :: seen), List.reverse_cons, List.append_assoc]
      rfl

theorem distinctPaths_eq (paths : List FilePath) :
    distinctPaths [] paths = firstSpellings paths :=
  (loop_eq_distinctPaths [] paths).symm

/-! ## 2. What arguments yield -/

variable {files : FileSystem Id} {finder : Finder Id} {argument : String}
  {arguments exclude : List String} {excluded : List (FilePath → Bool)}

/-- The paths that an argument yields by itself: those that the finder has for a pattern or for a
    folder, or else the one that it is. -/
def yields (files : FileSystem Id) (finder : Finder Id) (argument : String) :
    Except DiscoveryError (List FilePath) :=
  if Glob.isWrittenIn argument then (finder.matching argument).run
  else if (files.isFolder ⟨argument⟩).run then (finder.below ⟨argument⟩).run
  else .ok [⟨argument⟩]

/-- A path is a source that is there and that is not excluded. -/
def isWanted (files : FileSystem Id) (excluded : List (FilePath → Bool)) (path : FilePath) :
    Bool :=
  (files.isFile path).run && path.extension? == some sourceExtension && !excluded.any (· path)

theorem run_gather {α β : Type} (f : α → Id (List β)) (as : List α) :
    (FileSystem.gather f as).run = as.flatMap fun a => (f a).run := by
  induction as with
  | nil => rfl
  | cons a as ih =>
    rw [FileSystem.gather, List.flatMap_cons, ← ih]
    rfl

theorem run_onlySources (paths : List FilePath) :
    (onlySources files paths).run = paths.filter fun p => (isSource files p).run := by
  rw [onlySources, run_gather]
  induction paths with
  | nil => rfl
  | cons p paths ih =>
    rw [List.flatMap_cons, ih, List.filter_cons]
    cases h : (isSource files p).run with
    | true => simp [h]
    | false => simp [h]

theorem run_isSource (p : FilePath) :
    (isSource files p).run = ((files.isFile p).run && p.extension? == some sourceExtension) := by
  unfold isSource
  by_cases h : (p.extension? == some sourceExtension) = true
  · rw [if_pos h, h, Bool.and_true]
  · rw [if_neg h, Bool.eq_false_iff.mpr h, Bool.and_false]
    rfl

theorem run_pathsAt (argument : String) :
    (pathsAt files finder argument).run = yields files finder argument := by
  unfold pathsAt yields
  split
  · rfl
  · rw [Id.run_bind]
    split
    · rfl
    · rfl

/-- An argument stands for the sources among the paths that it yields. -/
theorem run_sourcesAt (argument : String) :
    (sourcesAt files finder argument).run =
      (yields files finder argument).map (List.filter fun p => (isSource files p).run) := by
  rw [sourcesAt, Id.run_bind, run_pathsAt]
  cases yields files finder argument with
  | error e => rfl
  | ok paths => exact congrArg Except.ok (run_onlySources paths)

/-- The sources of each argument, if all of them yield something. -/
theorem run_sourcesOfEach (arguments : List String) :
    (sourcesOfEach files finder arguments).run =
      (arguments.mapM (yields files finder)).map
        (List.map (List.filter fun p => (isSource files p).run)) := by
  induction arguments with
  | nil => rfl
  | cons argument arguments ih =>
    rw [sourcesOfEach, List.mapM_cons, Id.run_bind, run_sourcesAt]
    cases yields files finder argument with
    | error e => rfl
    | ok paths =>
      show (sourcesOfEach files finder arguments).run.map _ = _
      rw [ih]
      cases arguments.mapM (yields files finder) with
      | error e => rfl
      | ok found => rfl

theorem exclusions_eq
    (h : List.Forall₂ (fun text excludes => finder.exclusion? text = some excludes)
      exclude excluded) : finder.exclusions exclude = .ok excluded := by
  induction h with
  | nil => rfl
  | cons hexcludes _ ih =>
    rw [Finder.exclusions, hexcludes, ih]
    rfl

theorem mapM_yields_eq {found : List (List FilePath)}
    (h : List.Forall₂ (fun argument paths => yields files finder argument = .ok paths)
      arguments found) : arguments.mapM (yields files finder) = .ok found := by
  induction h with
  | nil => rfl
  | cons hpaths _ ih =>
    rw [List.mapM_cons, hpaths, ih]
    rfl

/-! ## 3. What is kept of it -/

variable {paths : List FilePath} {found : List (List FilePath)} {p q : FilePath}

/-- What is kept of the paths that one argument yields, if no other argument is there. -/
def inOrder (files : FileSystem Id) (excluded : List (FilePath → Bool)) (paths : List FilePath) :
    List FilePath :=
  (sortPaths (paths.filter fun p => (isSource files p).run)).filter
    fun p => !excluded.any (· p)

theorem filter_isWanted (paths : List FilePath) :
    paths.filter (isWanted files excluded) =
      (paths.filter fun p => (isSource files p).run).filter
        fun p => !excluded.any (· p) := by
  rw [List.filter_filter]
  refine List.filter_congr fun p _ => ?_
  rw [isWanted, run_isSource, Bool.and_comm]

/-- These are the wanted ones, -/
theorem inOrder_perm (paths : List FilePath) :
    (inOrder files excluded paths).Perm (paths.filter (isWanted files excluded)) := by
  rw [filter_isWanted]
  exact (sortPaths_perm _).filter _

/-- in the order of paths, -/
theorem pairwise_inOrder (paths : List FilePath) :
    (inOrder files excluded paths).Pairwise fun p q => p.notAfter q = true :=
  (pairwise_sortPaths _).filter _

/-- and of different spellings of one path the one that is yielded first comes first. -/
theorem find?_inOrder (paths : List FilePath) (p : FilePath) :
    (inOrder files excluded paths).find? (·.same p) =
      (paths.filter (isWanted files excluded)).find? (·.same p) := by
  rw [filter_isWanted]
  exact find?_filter_sortPaths _ _ p

theorem occurs_inOrder (paths : List FilePath) (p : FilePath) :
    occurs (inOrder files excluded paths) p = occurs (paths.filter (isWanted files excluded)) p :=
  (inOrder_perm paths).any_eq

theorem mem_flatMap_inOrder_iff :
    p ∈ found.flatMap (inOrder files excluded) ↔
      ∃ paths ∈ found, p ∈ paths ∧ isWanted files excluded p = true := by
  rw [List.mem_flatMap]
  exact exists_congr fun paths => and_congr_right fun _ =>
    (inOrder_perm paths).mem_iff.trans List.mem_filter

theorem collectSources_eq (found : List (List FilePath)) :
    collectSources excluded (found.map (List.filter fun p => (isSource files p).run)) =
      firstSpellings (found.flatMap (inOrder files excluded)) := by
  rw [collectSources, distinctPaths_eq, List.flatMap_map, List.filter_flatMap]
  rfl

/-- **The sources that arguments stand for**, if all of them yield something. -/
theorem run_discover
    (hexclude : List.Forall₂ (fun text excludes => finder.exclusion? text = some excludes)
      exclude excluded) :
    (discover files finder arguments exclude).run =
      (arguments.mapM (yields files finder)).map fun found =>
        firstSpellings (found.flatMap (inOrder files excluded)) := by
  unfold discover
  rw [exclusions_eq hexclude]
  show (sourcesOfEach files finder arguments).run.map (collectSources excluded) = _
  rw [run_sourcesOfEach]
  cases arguments.mapM (yields files finder) with
  | error e => rfl
  | ok found => exact congrArg Except.ok (collectSources_eq found)

/-! ## 4. The order of sources -/

/-- The number of the first argument that yields a path. -/
def firstIn (found : List (List FilePath)) (p : FilePath) : Nat :=
  found.findIdx fun paths => occurs paths p

/-- A path comes before another one: an earlier argument yields it, or the same one does and it is
    the first of the two in the order of paths. -/
def ComesBefore (found : List (List FilePath)) (p q : FilePath) : Prop :=
  firstIn found p < firstIn found q ∨ firstIn found p = firstIn found q ∧ p.order q = .lt

/-- What comes up has its place before all further arguments, -/
theorem firstIn_lt_length (h : occurs found.flatten p = true) : firstIn found p < found.length := by
  obtain ⟨q, hq, hsame⟩ := FilePath.occurs_iff.mp h
  obtain ⟨paths, hpaths, hq⟩ := List.mem_flatten.mp hq
  exact List.findIdx_lt_length_of_exists ⟨paths, hpaths, FilePath.occurs_iff.mpr ⟨q, hq, hsame⟩⟩

/-- where these do not matter, -/
theorem firstIn_concat_of_occurs (h : occurs found.flatten p = true) :
    firstIn (found ++ [paths]) p = firstIn found p := by
  have hlt := firstIn_lt_length h
  unfold firstIn at hlt ⊢
  rw [List.findIdx_append, if_pos hlt]

/-- and what is new with an argument has its place there. -/
theorem firstIn_concat_of_new (h : occurs found.flatten p = false) (hp : occurs paths p = true) :
    firstIn (found ++ [paths]) p = found.length := by
  have hnone : firstIn found p = found.length := by
    refine List.findIdx_eq_length.mpr fun others hothers => ?_
    refine Bool.eq_false_iff.mpr fun hp => ?_
    obtain ⟨q, hq, hsame⟩ := FilePath.occurs_iff.mp hp
    rw [FilePath.occurs_iff.mpr ⟨q, List.mem_flatten.mpr ⟨others, hothers, hq⟩, hsame⟩] at h
    cases h
  rw [firstIn] at hnone
  rw [firstIn, List.findIdx_append, hnone, if_neg (Nat.lt_irrefl _), List.findIdx_singleton,
    if_pos hp, Nat.zero_add]

/-- **Sources are in order.** The last argument adds the paths that are new, in the order of
    paths, behind all others. -/
theorem pairwise_comesBefore
    (h : ∀ paths ∈ found, paths.Pairwise fun p q => p.notAfter q = true) :
    (firstSpellings found.flatten).Pairwise (ComesBefore found) := by
  induction found using List.reverseRecOn with
  | nil => exact List.Pairwise.nil
  | append_singleton found paths ih =>
    have hold (p : FilePath) (hp : p ∈ firstSpellings found.flatten) :
        occurs found.flatten p = true :=
      FilePath.occurs_of_mem (FilePath.mem_of_mem_firstSpellings hp)
    have hnew (p : FilePath)
        (hp : p ∈ (firstSpellings paths).filter fun p => !occurs found.flatten p) :
        firstIn (found ++ [paths]) p = found.length := by
      obtain ⟨hmem, hno⟩ := List.mem_filter.mp hp
      exact firstIn_concat_of_new (Bool.not_eq_true' _ ▸ hno)
        (FilePath.occurs_of_mem (FilePath.mem_of_mem_firstSpellings hmem))
    have hsorted := h paths (List.mem_append_right found List.mem_cons_self)
    rw [List.flatten_concat, FilePath.firstSpellings_append]
    refine List.pairwise_append.mpr ⟨?_, ?_, fun p hp q hq => .inl ?_⟩
    · refine (ih fun others hothers => h others (List.mem_append_left _ hothers)).imp_of_mem
        fun {p q} hp hq hpq => ?_
      unfold ComesBefore
      rw [firstIn_concat_of_occurs (hold p hp), firstIn_concat_of_occurs (hold q hq)]
      exact hpq
    · have hboth := (hsorted.sublist (FilePath.firstSpellings_sublist paths)).and
        (FilePath.pairwise_firstSpellings paths)
      refine (hboth.filter _).imp_of_mem fun {p q} hp hq hpq => .inr ⟨?_, ?_⟩
      · rw [hnew p hp, hnew q hq]
      · exact FilePath.order_eq_lt hpq.1 hpq.2
    · rw [hnew q hq, firstIn_concat_of_occurs (hold p hp)]
      exact firstIn_lt_length (hold p hp)

/-! ## 5. Arguments without new sources -/

/-- Paths that have come up before add none. -/
theorem firstSpellings_insert {before between after : List FilePath}
    (h : ∀ p ∈ between, occurs before p = true) :
    firstSpellings (before ++ between ++ after) = firstSpellings (before ++ after) := by
  have hoccurs (p : FilePath) : occurs (before ++ between) p = occurs before p := by
    rw [FilePath.occurs_append]
    cases hbetween : occurs between p with
    | false => exact Bool.or_false _
    | true =>
      obtain ⟨q, hq, hsame⟩ := FilePath.occurs_iff.mp hbetween
      rw [FilePath.same_comm] at hsame
      rw [FilePath.occurs_of_same hsame (h q hq), Bool.or_true]
  have hnone : (firstSpellings between).filter (fun p => !occurs before p) = [] := by
    refine List.filter_eq_nil_iff.mpr fun p hp => ?_
    rw [h p (FilePath.mem_of_mem_firstSpellings hp)]
    exact Bool.false_ne_true
  rw [FilePath.firstSpellings_append, FilePath.firstSpellings_append before between, hnone,
    List.append_nil, FilePath.firstSpellings_append before after]
  simp only [hoccurs]

theorem exists_forall₂_yields {P : List FilePath → Prop}
    (h : ∀ argument ∈ arguments, ∃ paths, yields files finder argument = .ok paths ∧ P paths) :
    ∃ found, List.Forall₂ (fun argument paths => yields files finder argument = .ok paths)
      arguments found ∧ ∀ paths ∈ found, P paths := by
  induction arguments with
  | nil => exact ⟨[], .nil, fun paths hpaths => absurd hpaths List.not_mem_nil⟩
  | cons argument arguments ih =>
    obtain ⟨paths, hyields, hpaths⟩ := h argument List.mem_cons_self
    obtain ⟨found, hfound, hall⟩ := ih fun a ha => h a (List.mem_cons_of_mem argument ha)
    exact ⟨paths :: found, .cons hyields hfound, List.forall_mem_cons.mpr ⟨hpaths, hall⟩⟩

/-- **Arguments that yield nothing new** could as well be missing. -/
theorem run_discover_insert {between : List String}
    (hexclude : List.Forall₂ (fun text excludes => finder.exclusion? text = some excludes)
      exclude excluded)
    (hfound : List.Forall₂ (fun argument paths => yields files finder argument = .ok paths)
      arguments found)
    (hbetween : ∀ argument ∈ between, ∃ paths, yields files finder argument = .ok paths ∧
      ∀ p ∈ paths, isWanted files excluded p = true →
        occurs (found.flatMap (inOrder files excluded)) p = true) (after : List String) :
    (discover files finder (arguments ++ between ++ after) exclude).run =
      (discover files finder (arguments ++ after) exclude).run := by
  obtain ⟨more, hmore, hnew⟩ := exists_forall₂_yields hbetween
  have hold (p : FilePath) (hp : p ∈ more.flatMap (inOrder files excluded)) :
      occurs (found.flatMap (inOrder files excluded)) p = true := by
    obtain ⟨paths, hpaths, hp, hwanted⟩ := mem_flatMap_inOrder_iff.mp hp
    exact hnew paths hpaths p hp hwanted
  rw [run_discover hexclude, run_discover hexclude, List.mapM_append, List.mapM_append,
    List.mapM_append, mapM_yields_eq hfound, mapM_yields_eq hmore]
  cases after.mapM (yields files finder) with
  | error e => rfl
  | ok last =>
    show Except.ok (firstSpellings ((found ++ more ++ last).flatMap _)) =
      Except.ok (firstSpellings ((found ++ last).flatMap _))
    rw [List.flatMap_append, List.flatMap_append, List.flatMap_append, firstSpellings_insert hold]

/-! ## 6. The laws -/

/-- Of the spellings of a path, the one that is yielded first counts. -/
theorem find?_flatMap_inOrder (found : List (List FilePath)) (p : FilePath) :
    (found.flatMap (inOrder files excluded)).find? (·.same p) =
      (found.flatten.filter (isWanted files excluded)).find? (·.same p) := by
  induction found with
  | nil => rfl
  | cons paths found ih =>
    rw [List.flatMap_cons, List.find?_append, find?_inOrder, ih, List.flatten_cons,
      List.filter_append, List.find?_append]

theorem firstIn_inOrder (found : List (List FilePath)) (p : FilePath) :
    firstIn (found.map (inOrder files excluded)) p =
      firstIn (found.map (List.filter (isWanted files excluded))) p := by
  rw [firstIn, firstIn, List.findIdx_map, List.findIdx_map]
  exact congrArg (List.findIdx · found) (funext fun paths => occurs_inOrder paths p)

/-- An argument that was there before yields nothing new. -/
theorem exists_yields (hfound : List.Forall₂
      (fun argument paths => yields files finder argument = .ok paths) arguments found)
    (h : argument ∈ arguments) : ∃ paths ∈ found, yields files finder argument = .ok paths := by
  induction hfound with
  | nil => cases h
  | cons hpaths _ ih =>
    rcases List.mem_cons.mp h with rfl | h
    · exact ⟨_, List.mem_cons_self, hpaths⟩
    · obtain ⟨paths, hmem, hyields⟩ := ih h
      exact ⟨paths, List.mem_cons_of_mem _ hmem, hyields⟩

/-- **The laws of discovery.** If no pattern and no walk fails, the sources that arguments stand
    for are the wanted paths that some argument yields: all of them, no path twice, and of its
    spellings the one that is yielded first. They are ordered by the first argument that yields
    them, and then by path. An argument that was there before, or arguments that yield only what
    was found before, change nothing. -/
theorem discovery_laws
    (hexclude : List.Forall₂ (fun text excludes => finder.exclusion? text = some excludes)
      exclude excluded)
    (hfound : List.Forall₂ (fun argument paths => yields files finder argument = .ok paths)
      arguments found) :
    ∃ sources, (discover files finder arguments exclude).run = .ok sources ∧
      (∀ p ∈ sources, ∃ paths ∈ found, p ∈ paths ∧ isWanted files excluded p = true) ∧
      (∀ paths ∈ found, ∀ p ∈ paths, isWanted files excluded p = true →
        ∃ q ∈ sources, q.same p = true) ∧
      sources.Pairwise (fun p q => p.same q = false) ∧
      (∀ p ∈ sources,
        (found.flatten.filter (isWanted files excluded)).find? (·.same p) = some p) ∧
      sources.Pairwise (ComesBefore (found.map (List.filter (isWanted files excluded)))) ∧
      (∀ argument ∈ arguments, ∀ after,
        (discover files finder (arguments ++ [argument] ++ after) exclude).run =
          (discover files finder (arguments ++ after) exclude).run) ∧
      ∀ between after,
        (∀ argument ∈ between, ∃ paths, yields files finder argument = .ok paths ∧
          ∀ p ∈ paths, isWanted files excluded p = true → ∃ q ∈ sources, q.same p = true) →
        (discover files finder (arguments ++ between ++ after) exclude).run =
          (discover files finder (arguments ++ after) exclude).run := by
  have hrun : (discover files finder arguments exclude).run = _ := run_discover hexclude
  rw [mapM_yields_eq hfound] at hrun
  have hcovers (p : FilePath) (paths : List FilePath) (hpaths : paths ∈ found) (hp : p ∈ paths)
      (hwanted : isWanted files excluded p = true) :
      occurs (found.flatMap (inOrder files excluded)) p = true :=
    FilePath.occurs_of_mem (mem_flatMap_inOrder_iff.mpr ⟨paths, hpaths, hp, hwanted⟩)
  refine ⟨_, hrun, fun p hp => ?_, fun paths hpaths p hp hwanted => ?_,
    FilePath.pairwise_firstSpellings _, fun p hp => ?_, ?_, fun argument hargument after => ?_,
    fun between after hbetween => ?_⟩
  · exact mem_flatMap_inOrder_iff.mp (FilePath.mem_of_mem_firstSpellings hp)
  · have hoccurs := hcovers p paths hpaths hp hwanted
    rw [← FilePath.occurs_firstSpellings] at hoccurs
    exact FilePath.occurs_iff.mp hoccurs
  · rw [← find?_flatMap_inOrder]
    exact FilePath.find?_of_mem_firstSpellings hp
  · have hsorted : ∀ paths ∈ found.map (inOrder files excluded),
        paths.Pairwise fun p q => p.notAfter q = true := by
      intro paths hpaths
      obtain ⟨others, _, rfl⟩ := List.mem_map.mp hpaths
      exact pairwise_inOrder others
    refine (pairwise_comesBefore hsorted).imp fun {p q} hpq => ?_
    unfold ComesBefore at hpq ⊢
    rwa [firstIn_inOrder, firstIn_inOrder] at hpq
  · obtain ⟨paths, hpaths, hyields⟩ := exists_yields hfound hargument
    refine run_discover_insert hexclude hfound (fun a ha => ?_) after
    rw [List.mem_singleton.mp ha]
    exact ⟨paths, hyields, fun p hp hwanted => hcovers p paths hpaths hp hwanted⟩
  · refine run_discover_insert hexclude hfound (fun argument hargument => ?_) after
    obtain ⟨paths, hyields, hpaths⟩ := hbetween argument hargument
    refine ⟨paths, hyields, fun p hp hwanted => ?_⟩
    rw [← FilePath.occurs_firstSpellings]
    exact FilePath.occurs_iff.mpr (hpaths p hp hwanted)

/-- A folder that is yielded whole and by parts, and one that is left out. -/
def shelf : Disk where
  root := .folder [
    ("lib", .folder [("B.javats", .file .empty), ("A.javats", .file .empty),
      ("notes.txt", .file .empty)]),
    ("gen", .folder [("C.javats", .file .empty)])]

theorem discovery_laws_shelf :
    let finder := Finder.ofFiles shelf.seen ⟨"/"⟩
    let arguments := ["lib//B.javats", "lib", "*/*.javats"]
    let found : List (List FilePath) :=
      [[⟨"lib//B.javats"⟩], [⟨"lib/B.javats"⟩, ⟨"lib/A.javats"⟩, ⟨"lib/notes.txt"⟩],
        [⟨"lib/B.javats"⟩, ⟨"lib/A.javats"⟩, ⟨"gen/C.javats"⟩]]
    let generated : Glob := ⟨[.char 'g', .char 'e', .char 'n', .char '/', .anyText]⟩
    let excluded : List (FilePath → Bool) := [fun path => generated.accepts path.text]
    let discovered (arguments : List String) :=
      (discover shelf.seen finder arguments ["gen/*"]).run
    List.Forall₂ (fun text excludes => finder.exclusion? text = some excludes)
        ["gen/*"] excluded ∧
      List.Forall₂ (fun argument paths => yields shelf.seen finder argument = .ok paths)
        arguments found ∧
      (∃ sources, discovered arguments = .ok sources ∧
        (∀ p ∈ sources, p = ⟨"lib//B.javats"⟩ ∨ p = ⟨"lib/A.javats"⟩) ∧
        ∀ p : FilePath, p = ⟨"lib//B.javats"⟩ ∨ p = ⟨"lib/A.javats"⟩ →
          ∃ q ∈ sources, q.same p = true) ∧
      ∀ after, discovered (arguments ++ ["lib"] ++ after) = discovered (arguments ++ after) := by
  intro finder arguments found generated excluded discovered
  have hpattern : Glob.ofText? "gen/*" = some generated := by decide +kernel
  have hexclude : List.Forall₂ (fun text excludes => finder.exclusion? text = some excludes)
      ["gen/*"] excluded :=
    .cons (congrArg (Option.map fun (pattern : Glob) (path : FilePath) =>
      pattern.accepts path.text) hpattern) .nil
  have hfound : List.Forall₂ (fun argument paths => yields shelf.seen finder argument = .ok paths)
      arguments found :=
    .cons (by decide +kernel) (.cons (by decide +kernel) (.cons (by decide +kernel) .nil))
  obtain ⟨sources, hrun, hyielded, hall, _, hfirst, _, hrepeated, _⟩ :=
    discovery_laws hexclude hfound
  refine ⟨hexclude, hfound, ⟨sources, hrun, fun p hp => ?_, fun p hp => ?_⟩,
    hrepeated "lib" (by decide)⟩
  · have hspellings : ∀ p ∈ found.flatten,
        (found.flatten.filter (isWanted shelf.seen excluded)).find? (·.same p) = some p →
          p = ⟨"lib//B.javats"⟩ ∨ p = ⟨"lib/A.javats"⟩ := by decide +kernel
    obtain ⟨paths, hpaths, hmem, _⟩ := hyielded p hp
    exact hspellings p (List.mem_flatten.mpr ⟨paths, hpaths, hmem⟩) (hfirst p hp)
  · rcases hp with rfl | rfl
    · exact hall [⟨"lib//B.javats"⟩] (by decide) _ (by decide) (by decide +kernel)
    · exact hall [⟨"lib/B.javats"⟩, ⟨"lib/A.javats"⟩, ⟨"lib/notes.txt"⟩] (by decide) _ (by decide)
        (by decide +kernel)

end ClassScript
