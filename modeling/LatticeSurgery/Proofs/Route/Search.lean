import LatticeSurgery.Route.Search
import Mathlib.Data.List.Chain
import Mathlib.Data.List.Nodup
import Mathlib.Data.List.Perm.Subperm
import Mathlib.Logic.Relation

namespace LatticeSurgery.Search

/-! # Searches that end

A search keeps the trails that it has found, and the queue holds those whose links have
not been followed. Every stop of a finite region is taken from the queue once, so with
enough fuel the queue runs empty, and then all stops that can be reached are found. Trails
leave the queue in the order of their lengths, so none of them can be shortened. -/

variable {α : Type}

/-- A way along a relation from one stop to another. -/
structure IsWay (related : α → α → Prop) (source target : α) (path : List α) : Prop where
  head : path.head? = some source
  last : path.getLast? = some target
  chain : path.IsChain related

/-- A way with the least number of stops. -/
structure IsShortest (related : α → α → Prop) (source target : α) (path : List α) : Prop
    extends IsWay related source target path where
  least : ∀ other, IsWay related source target other → path.length ≤ other.length

namespace IsWay

variable {related : α → α → Prop} {source target : α} {path : List α}

theorem start (related : α → α → Prop) (source : α) : IsWay related source source [source] :=
  ⟨rfl, rfl, .singleton source⟩

theorem snoc (way : IsWay related source target path) {next : α} (step : related target next) :
    IsWay related source next (path ++ [next]) := by
  constructor
  · rw [List.head?_append, way.head]
    rfl
  · exact List.getLast?_concat
  · rw [List.isChain_append]
    refine ⟨way.chain, .singleton next, ?_⟩
    intro stop isLast other isFirst
    rw [way.last, Option.mem_some_iff] at isLast
    rw [List.head?_cons, Option.mem_some_iff] at isFirst
    rw [← isLast, ← isFirst]
    exact step

/-- A way ends at its target, and it either starts there or has a stop before. -/
theorem eq_last {front : List α} {stop : α} (way : IsWay related source target (front ++ [stop])) :
    stop = target ∧ (front = [] ∨ ∃ before previous, front = before ++ [previous]) := by
  constructor
  · have last := way.last
    rwa [List.getLast?_concat, Option.some.injEq] at last
  · cases List.eq_nil_or_concat front with
    | inl empty => exact .inl empty
    | inr split =>
        rcases split with ⟨before, previous, split⟩
        exact .inr ⟨before, previous, by rw [split, List.concat_eq_append]⟩

/-- The way without its last stop. -/
theorem dropLast {front : List α} {previous : α}
    (way : IsWay related source target (front ++ [previous] ++ [target])) :
    IsWay related source previous (front ++ [previous]) ∧ related previous target := by
  have chain := List.isChain_append.mp way.chain
  refine ⟨⟨?_, List.getLast?_concat, chain.1⟩, ?_⟩
  · rw [← way.head, List.head?_append_of_ne_nil (front ++ [previous]) (by simp)]
  · exact chain.2.2 previous List.getLast?_concat target rfl

theorem reaches (way : IsWay related source target path) :
    Relation.ReflTransGen related source target := by
  rcases List.head?_eq_some_iff.mp way.head with ⟨rest, rfl⟩
  apply List.relationReflTransGen_of_exists_isChain_cons rest way.chain
  rw [← Option.some.injEq, ← List.getLast?_eq_some_getLast, way.last]

theorem two_le_length (way : IsWay related source target path) (different : source ≠ target) :
    2 ≤ path.length := by
  have head := way.head
  have last := way.last
  match path with
  | [] => cases head
  | [stop] => exact absurd (Option.some.inj (head.symm.trans last)) different
  | _ :: _ :: _ => simp

theorem exists_of_reaches (reaches : Relation.ReflTransGen related source target) :
    ∃ path, IsWay related source target path := by
  rcases List.exists_isChain_cons_of_relationReflTransGen reaches with ⟨rest, chain, last⟩
  refine ⟨source :: rest, rfl, ?_, chain⟩
  rw [List.getLast?_eq_some_getLast (List.cons_ne_nil source rest), last]

theorem mono {wider : α → α → Prop} (implies : ∀ stop next, related stop next → wider stop next)
    (way : IsWay related source target path) : IsWay wider source target path :=
  ⟨way.head, way.last, way.chain.imp implies⟩

/-- A way that does not stay where it is. -/
theorem exists_proper (way : IsWay related source target path) :
    ∃ proper, IsWay (fun stop next => related stop next ∧ next ≠ stop) source target proper ∧
      proper.length ≤ path.length := by
  induction path using List.reverseRecOn generalizing target with
  | nil => exact absurd way.head (by simp)
  | append_singleton front stop induction =>
      rcases way.eq_last with ⟨rfl, isStart | ⟨before, previous, rfl⟩⟩
      · subst isStart
        have same : stop = source := Option.some.inj way.head
        subst same
        exact ⟨[stop], .start _ stop, Nat.le_refl _⟩
      · rcases way.dropLast with ⟨shorter, step⟩
        rcases induction shorter with ⟨proper, properWay, short⟩
        by_cases stays : stop = previous
        · subst stays
          refine ⟨proper, properWay, Nat.le_trans short ?_⟩
          simp
        · refine ⟨proper ++ [stop], properWay.snoc ⟨step, stays⟩, ?_⟩
          simpa using short

end IsWay

/-- Steps from a stop to itself make no way shorter. -/
theorem IsShortest.of_proper {related : α → α → Prop} {source target : α} {path : List α}
    (shortest : IsShortest (fun stop next => related stop next ∧ next ≠ stop) source target path) :
    IsShortest related source target path where
  toIsWay := shortest.toIsWay.mono fun _ _ step => step.1
  least other way := by
    rcases way.exists_proper with ⟨proper, properWay, short⟩
    exact Nat.le_trans (shortest.least proper properWay) short

/-! ## What a search knows -/

variable {links : α → List α} {source : α}

/-- A trail along the links from the source of the search. -/
def IsTrail (links : α → List α) (source : α) (trail : Trail α) : Prop :=
  IsWay (fun stop next => next ∈ links stop) source trail.stop trail.stops

theorem length_stops (trail : Trail α) : trail.stops.length = trail.before.length + 1 := by
  rw [Trail.stops, List.length_reverse, List.length_cons]

variable [DecidableEq α] [Hashable α]

/-- What a search knows while it runs. -/
structure Explored (links : α → List α) (source : α) (queue found : List (Trail α))
    (seen : Std.HashSet α) : Prop where
  mem_seen : ∀ stop, stop ∈ seen ↔ stop ∈ found.map Trail.stop
  distinct : (found.map Trail.stop).Nodup
  queued : ∀ trail ∈ queue, trail ∈ found
  followed : ∀ trail ∈ found, trail ∈ queue ∨ ∀ next ∈ links trail.stop,
    ∃ other ∈ found, other.stop = next ∧ other.before.length ≤ trail.before.length + 1
  started : Trail.start source ∈ found
  ordered : queue.Pairwise fun first second => first.before.length ≤ second.before.length
  close : ∀ first ∈ queue.head?, ∀ other ∈ found,
    other.before.length ≤ first.before.length + 1

theorem Explored.start (links : α → List α) (source : α) :
    Explored links source [.start source] [.start source] {source} where
  mem_seen stop := by
    simp only [Trail.start, List.map_singleton, List.mem_singleton]
    simpa using eq_comm
  distinct := by simp
  queued _ member := member
  followed _ member := .inl member
  started := List.mem_singleton_self _
  ordered := List.pairwise_singleton _ _
  close := by simp

variable {queue found : List (Trail α)} {seen : Std.HashSet α} {trail : Trail α}

/-- The links of a stop that a search has not seen. -/
def freshLinks (links : α → List α) (seen : Std.HashSet α) (stop : α) : List α :=
  (links stop).filter fun next => !seen.contains next

theorem mem_freshLinks {stop next : α} :
    next ∈ freshLinks links seen stop ↔ next ∈ links stop ∧ next ∉ seen := by
  simp [freshLinks, List.mem_filter]

/-- The trails that prolong a trail by one fresh link. -/
def prolonged (links : α → List α) (seen : Std.HashSet α) (trail : Trail α) : List (Trail α) :=
  (freshLinks links seen trail.stop).map trail.extend

theorem map_stop_prolonged :
    (prolonged links seen trail).map Trail.stop = freshLinks links seen trail.stop := by
  rw [prolonged, List.map_map]
  exact List.map_id _

theorem length_of_mem_prolonged {other : Trail α} (member : other ∈ prolonged links seen trail) :
    other.before.length = trail.before.length + 1 := by
  rcases List.mem_map.mp member with ⟨next, _, rfl⟩
  rfl

namespace Explored

/-- Every link of the trail at the front of the queue leads to a stop that is known or fresh. -/
theorem exists_followed (explored : Explored links source (trail :: queue) found seen) {next : α}
    (linked : next ∈ links trail.stop) :
    ∃ other ∈ (prolonged links seen trail).reverse ++ found, other.stop = next ∧
      other.before.length ≤ trail.before.length + 1 := by
  by_cases isSeen : next ∈ seen
  · rcases List.mem_map.mp ((explored.mem_seen next).mp isSeen) with ⟨other, isFound, stops⟩
    exact ⟨other, List.mem_append_right _ isFound, stops, explored.close trail rfl other isFound⟩
  · have isReached : trail.extend next ∈ prolonged links seen trail :=
      List.mem_map_of_mem (mem_freshLinks.mpr ⟨linked, isSeen⟩)
    exact ⟨trail.extend next, List.mem_append_left _ (List.mem_reverse.mpr isReached), rfl,
      Nat.le_refl _⟩

theorem followed_step (explored : Explored links source (trail :: queue) found seen) :
    ∀ other ∈ (prolonged links seen trail).reverse ++ found,
      other ∈ queue ++ prolonged links seen trail ∨ ∀ next ∈ links other.stop,
        ∃ reaching ∈ (prolonged links seen trail).reverse ++ found, reaching.stop = next ∧
          reaching.before.length ≤ other.before.length + 1 := by
  intro other member
  cases List.mem_append.mp member with
  | inl member => exact .inl (List.mem_append_right _ (List.mem_reverse.mp member))
  | inr member =>
      cases explored.followed other member with
      | inr followed =>
          right
          intro next linked
          rcases followed next linked with ⟨reaching, reachingFound, stops, short⟩
          exact ⟨reaching, List.mem_append_right _ reachingFound, stops, short⟩
      | inl queued =>
          cases List.mem_cons.mp queued with
          | inr queued => exact .inl (List.mem_append_left _ queued)
          | inl isFront =>
              subst isFront
              exact .inr fun next => explored.exists_followed

-- The trail at the front has the least length of the queue, and nothing is found that is
-- more than one link longer.
theorem ordered_step (explored : Explored links source (trail :: queue) found seen) :
    (queue ++ prolonged links seen trail).Pairwise fun first second =>
      first.before.length ≤ second.before.length := by
  rw [List.pairwise_append]
  refine ⟨(List.pairwise_cons.mp explored.ordered).2, List.pairwise_of_forall_mem_list ?_, ?_⟩
  · intro first firstMember second secondMember
    rw [length_of_mem_prolonged firstMember, length_of_mem_prolonged secondMember]
  · intro first firstMember second secondMember
    rw [length_of_mem_prolonged secondMember]
    exact explored.close trail rfl first (explored.queued first (.tail _ firstMember))

theorem close_step (explored : Explored links source (trail :: queue) found seen) :
    ∀ first ∈ (queue ++ prolonged links seen trail).head?,
      ∀ other ∈ (prolonged links seen trail).reverse ++ found,
        other.before.length ≤ first.before.length + 1 := by
  intro first isFirst other member
  have lower : trail.before.length ≤ first.before.length := by
    cases List.mem_append.mp (List.mem_of_mem_head? isFirst) with
    | inl member => exact (List.pairwise_cons.mp explored.ordered).1 first member
    | inr member =>
        rw [length_of_mem_prolonged member]
        exact Nat.le_succ _
  have upper : other.before.length ≤ trail.before.length + 1 := by
    cases List.mem_append.mp member with
    | inl member => exact Nat.le_of_eq (length_of_mem_prolonged (List.mem_reverse.mp member))
    | inr member => exact explored.close trail rfl other member
  omega

/-- Taking a trail from the queue follows its links. -/
theorem step (distinctLinks : ∀ stop, (links stop).Nodup)
    (explored : Explored links source (trail :: queue) found seen) :
    Explored links source (queue ++ prolonged links seen trail)
      ((prolonged links seen trail).reverse ++ found)
      (seen.insertMany (freshLinks links seen trail.stop)) where
  mem_seen stop := by
    rw [Std.HashSet.mem_insertMany_list, List.contains_iff_mem, explored.mem_seen, List.map_append,
      List.mem_append, List.map_reverse, map_stop_prolonged, List.mem_reverse, or_comm]
  distinct := by
    rw [List.map_append, List.map_reverse, map_stop_prolonged, List.nodup_append]
    refine ⟨List.nodup_reverse.mpr ((distinctLinks trail.stop).filter _), explored.distinct, ?_⟩
    intro stop isFresh other isKnown same
    rw [← same] at isKnown
    exact (mem_freshLinks.mp (List.mem_reverse.mp isFresh)).2 ((explored.mem_seen stop).mpr isKnown)
  queued other member := by
    cases List.mem_append.mp member with
    | inl member => exact List.mem_append_right _ (explored.queued other (.tail _ member))
    | inr member => exact List.mem_append_left _ (List.mem_reverse.mpr member)
  followed := explored.followed_step
  started := List.mem_append_right _ explored.started
  ordered := explored.ordered_step
  close := explored.close_step

end Explored

/-- A search with enough fuel for a region that no link leaves ends with an empty queue. -/
theorem explored_explore (distinctLinks : ∀ stop, (links stop).Nodup) {region : List α}
    (closed : ∀ stop ∈ region, ∀ next ∈ links stop, next ∈ region) {fuel taken : Nat}
    (explored : Explored links source queue found seen)
    (inside : ∀ trail ∈ found, trail.stop ∈ region)
    (count : found.length = queue.length + taken) (enough : region.length ≤ fuel + taken) :
    ∃ allSeen, Explored links source [] (explore links fuel queue found seen) allSeen := by
  induction fuel generalizing queue found seen taken with
  | zero =>
      -- All stops of the region have been taken, so nothing is left in the queue.
      have stops : (found.map Trail.stop).length ≤ region.length := by
        apply (explored.distinct.subperm ?_).length_le
        intro stop member
        rcases List.mem_map.mp member with ⟨trail, trailMember, rfl⟩
        exact inside trail trailMember
      rw [List.length_map] at stops
      have empty : queue = [] := List.eq_nil_of_length_eq_zero (by omega)
      subst empty
      exact ⟨seen, explored⟩
  | succ fuel induction =>
      cases queue with
      | nil => exact ⟨seen, explored⟩
      | cons trail queue =>
          have nextCount (reached : List (Trail α)) :
              (reached.reverse ++ found).length = (queue ++ reached).length + (taken + 1) := by
            rw [List.length_append, List.length_reverse, List.length_append, count,
              List.length_cons]
            omega
          rw [explore]
          refine induction (explored.step distinctLinks) ?_ (nextCount _) (by omega)
          intro other member
          cases List.mem_append.mp member with
          | inl member =>
              rcases List.mem_map.mp (List.mem_reverse.mp member) with ⟨next, isFresh, rfl⟩
              exact closed trail.stop (inside trail (explored.queued trail List.mem_cons_self))
                next (List.mem_of_mem_filter isFresh)
          | inr member => exact inside other member

/-- Whatever a search finds is a trail along the links. -/
theorem isTrail_of_mem_explore {fuel : Nat} (queued : ∀ trail ∈ queue, IsTrail links source trail)
    (trails : ∀ trail ∈ found, IsTrail links source trail) :
    ∀ trail ∈ explore links fuel queue found seen, IsTrail links source trail := by
  induction fuel generalizing queue found seen with
  | zero => exact trails
  | succ fuel induction =>
      cases queue with
      | nil => exact trails
      | cons trail queue =>
          have reached : ∀ next ∈ (links trail.stop).filter (fun next => !seen.contains next),
              IsTrail links source (trail.extend next) := by
            intro next isFresh
            rw [IsTrail, Trail.stops_extend]
            exact (queued trail List.mem_cons_self).snoc (List.mem_of_mem_filter isFresh)
          rw [explore]
          apply induction
          · intro other member
            cases List.mem_append.mp member with
            | inl member => exact queued other (.tail _ member)
            | inr member =>
                rcases List.mem_map.mp member with ⟨next, isFresh, rfl⟩
                exact reached next isFresh
          · intro other member
            cases List.mem_append.mp member with
            | inl member =>
                rcases List.mem_map.mp (List.mem_reverse.mp member) with ⟨next, isFresh, rfl⟩
                exact reached next isFresh
            | inr member => exact trails other member

/-- An ended search has found a trail that is no longer than any way to its stop. -/
theorem Explored.exists_trail (explored : Explored links source [] found seen) {target : α}
    {path : List α} (way : IsWay (fun stop next => next ∈ links stop) source target path) :
    ∃ trail ∈ found, trail.stop = target ∧ trail.before.length + 1 ≤ path.length := by
  induction path using List.reverseRecOn generalizing target with
  | nil => exact absurd way.head (by simp)
  | append_singleton front stop induction =>
      rcases way.eq_last with ⟨rfl, isStart | ⟨before, previous, rfl⟩⟩
      · subst isStart
        have same : stop = source := Option.some.inj way.head
        subst same
        exact ⟨.start stop, explored.started, rfl, Nat.le_refl _⟩
      · rcases way.dropLast with ⟨shorter, linked⟩
        rcases induction shorter with ⟨trail, member, stops, short⟩
        subst stops
        cases explored.followed trail member with
        | inl queued => cases queued
        | inr followed =>
            rcases followed stop linked with ⟨other, otherMember, otherStops, close⟩
            refine ⟨other, otherMember, otherStops, ?_⟩
            rw [List.length_append, List.length_singleton]
            omega

/-! ## Paths -/

/-- A path that a search gives is a way along the links. -/
theorem isWay_of_pathTo? {count : Nat} {target : α} {path : List α}
    (given : pathTo? (trails links count source) target = some path) :
    IsWay (fun stop next => next ∈ links stop) source target path := by
  rcases Option.map_eq_some_iff.mp given with ⟨trail, found, rfl⟩
  have starts : ∀ trail ∈ [Trail.start source], IsTrail links source trail :=
    List.forall_mem_singleton.mpr (IsWay.start _ source)
  have isTrail := isTrail_of_mem_explore starts starts trail (List.mem_of_find?_eq_some found)
  have stops : trail.stop = target := by simpa using List.find?_some found
  rw [IsTrail, stops] at isTrail
  exact isTrail

/-- A search finds a shortest way to every stop that can be reached. -/
theorem exists_pathTo? (distinctLinks : ∀ stop, (links stop).Nodup) {region : List α}
    (closed : ∀ stop ∈ region, ∀ next ∈ links stop, next ∈ region) (sourceInside : source ∈ region)
    {count : Nat} (enough : region.length ≤ count) {target : α}
    (reaches : Relation.ReflTransGen (fun stop next => next ∈ links stop) source target) :
    ∃ path, pathTo? (trails links count source) target = some path ∧
      IsShortest (fun stop next => next ∈ links stop) source target path := by
  have inside : ∀ trail ∈ [Trail.start source], trail.stop ∈ region :=
    List.forall_mem_singleton.mpr sourceInside
  have fuel : region.length ≤ count + 0 := enough
  rcases explored_explore distinctLinks closed (Explored.start links source) inside rfl fuel with
    ⟨seen, explored⟩
  rw [← trails] at explored
  rcases IsWay.exists_of_reaches reaches with ⟨someWay, isWay⟩
  rcases explored.exists_trail isWay with ⟨reaching, reachingFound, reachingStops, _⟩
  cases found : (trails links count source).find? fun trail => trail.stop = target with
  | none =>
      have different := List.find?_eq_none.mp found reaching reachingFound
      simp [reachingStops] at different
  | some trail =>
      have given : pathTo? (trails links count source) target = some trail.stops := by
        rw [pathTo?, found, Option.map_some]
      refine ⟨trail.stops, given, isWay_of_pathTo? given, ?_⟩
      intro other otherWay
      rcases explored.exists_trail otherWay with ⟨short, shortFound, shortStops, short_le⟩
      have stops : trail.stop = target := by simpa using List.find?_some found
      -- Only one trail leads to the target.
      have same : trail = short :=
        List.inj_on_of_nodup_map explored.distinct (List.mem_of_find?_eq_some found) shortFound
          (stops.trans shortStops.symm)
      rw [length_stops, same]
      exact short_le

end LatticeSurgery.Search
