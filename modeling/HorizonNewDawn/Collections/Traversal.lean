import Mathlib.Algebra.BigOperators.Group.Finset.Basic
import Mathlib.Algebra.BigOperators.Group.Finset.Piecewise
import Mathlib.Algebra.Order.BigOperators.Group.Finset
import Mathlib.Logic.Relation

/-! # Depth-first traversals

`visit` goes through what can be reached from the elements of a stack, past what has been visited
before. In a graph whose edges go both ways it finds the connected component it starts in
(`visit_component`), so starting it from every node that has not been visited yet takes the graph apart
into its components (`gather_components`). The components as sets do not depend on the order of the
nodes (`Components.perm`). -/

namespace Traversal

variable {ι : Type} [DecidableEq ι] {next : ι → List ι} {fuel : ℕ} {start : ι}
  {pending component visited nodes : List ι}

/-- Take the top of the stack; where it has not been visited, visit it and put its neighbours on the
stack. -/
def visit (next : ι → List ι) : ℕ → List ι → List ι → List ι → List ι × List ι
  | 0, _, component, visited => (component, visited)
  | _ + 1, [], component, visited => (component, visited)
  | fuel + 1, i :: pending, component, visited =>
      if i ∈ visited then visit next fuel pending component visited
      else
        let visited := visited ++ [i]
        let related := (next i).filter fun j => j ∉ visited
        visit next fuel (related.reverse ++ pending) (component ++ [i]) visited

/-- What a traversal adds to the visited elements. -/
structure Adds (next : ι → List ι) (pending visited new : List ι) : Prop where
  nodup : new.Nodup
  fresh : ∀ i ∈ new, i ∉ visited
  handled : ∀ i ∈ pending, i ∈ visited ∨ i ∈ new
  closed : ∀ i ∈ new, ∀ j ∈ next i, j ∈ visited ∨ j ∈ new
  reached : ∀ i ∈ new, ∃ p ∈ pending, Relation.ReflTransGen (fun i j => j ∈ next i) p i

/-- The neighbours that may still go on the stack. -/
def ahead (next : ι → List ι) (support : Finset ι) (visited : List ι) : ℕ :=
  ∑ i ∈ support with i ∉ visited, (next i).length

/-- A visit takes the neighbours of the element from what is ahead. -/
theorem ahead_visit {support : Finset ι} {i : ι} (hsupport : i ∉ support → next i = [])
    (hi : i ∉ visited) :
    (next i).length + ahead next support (visited ++ [i]) = ahead next support visited := by
  unfold ahead
  have herase : support.filter (· ∉ visited ++ [i]) = (support.filter (· ∉ visited)).erase i := by
    ext j
    simp only [Finset.mem_filter, List.mem_append, List.mem_singleton, Finset.mem_erase]
    tauto
  rw [herase]
  by_cases hmem : i ∈ support
  · exact Finset.add_sum_erase _ (fun i => (next i).length) (Finset.mem_filter.mpr ⟨hmem, hi⟩)
  · rw [hsupport hmem, List.length_nil, Nat.zero_add, Finset.erase_eq_of_notMem]
    exact fun h => hmem (Finset.mem_filter.mp h).1

/-- **A traversal** with enough fuel adds what can be reached. -/
theorem visit_adds {support : Finset ι} (hsupport : ∀ i ∉ support, next i = [])
    (hfuel : pending.length + ahead next support visited ≤ fuel) :
    ∃ new, visit next fuel pending component visited = (component ++ new, visited ++ new) ∧
      Adds next pending visited new := by
  induction fuel generalizing pending component visited with
  | zero =>
      have hnil : pending = [] := List.length_eq_zero_iff.mp (by omega)
      subst hnil
      exact ⟨[], by simp [visit], List.nodup_nil, by simp, by simp, by simp, by simp⟩
  | succ fuel ih =>
      cases pending with
      | nil => exact ⟨[], by simp [visit], List.nodup_nil, by simp, by simp, by simp, by simp⟩
      | cons i pending =>
          rw [List.length_cons] at hfuel
          rw [visit]
          split_ifs with hi
          · have hbound : pending.length + ahead next support visited ≤ fuel := by omega
            obtain ⟨new, hvisit, hadds⟩ := @ih pending component visited hbound
            refine ⟨new, hvisit, hadds.nodup, hadds.fresh, ?_, hadds.closed, fun j hj => ?_⟩
            · exact List.forall_mem_cons.mpr ⟨Or.inl hi, hadds.handled⟩
            · obtain ⟨p, hp, hreach⟩ := hadds.reached j hj
              exact ⟨p, List.mem_cons_of_mem i hp, hreach⟩
          -- The top of the stack is new: its neighbours are looked at next.
          have hahead := ahead_visit (hsupport i) hi
          set related := (next i).filter fun j => j ∉ visited ++ [i] with hrelated
          have hlength : related.length ≤ (next i).length := List.length_filter_le _ _
          have hbound : (related.reverse ++ pending).length + ahead next support (visited ++ [i]) ≤
              fuel := by
            simp only [List.length_append, List.length_reverse]
            omega
          obtain ⟨new, hvisit, hadds⟩ := @ih _ (component ++ [i]) _ hbound
          have hmem {j : ι} : j ∈ visited ++ [i] ∨ j ∈ new ↔ j ∈ visited ∨ j ∈ i :: new := by
            simp only [List.mem_append, List.mem_cons]
            tauto
          refine ⟨i :: new, ?_, ?_, ?_, ?_, ?_, ?_⟩
          · rw [hvisit]
            simp
          · refine List.nodup_cons.mpr ⟨fun hin => ?_, hadds.nodup⟩
            exact hadds.fresh i hin (by simp)
          · refine List.forall_mem_cons.mpr ⟨hi, fun j hj hvisited => ?_⟩
            exact hadds.fresh j hj (List.mem_append_left _ hvisited)
          · refine List.forall_mem_cons.mpr ⟨Or.inr List.mem_cons_self, fun j hj => ?_⟩
            exact hmem.mp (hadds.handled j (List.mem_append_right _ hj))
          · refine List.forall_mem_cons.mpr ⟨fun j hj => ?_, fun j hj k hk => hmem.mp
              (hadds.closed j hj k hk)⟩
            by_cases hvisited : j ∈ visited ++ [i]
            · exact hmem.mp (Or.inl hvisited)
            · refine hmem.mp (hadds.handled j (List.mem_append_left _ (List.mem_reverse.mpr ?_)))
              exact List.mem_filter.mpr ⟨hj, by simpa using hvisited⟩
          · refine List.forall_mem_cons.mpr ⟨⟨i, List.mem_cons_self, .refl⟩, fun j hj => ?_⟩
            obtain ⟨p, hp, hreach⟩ := hadds.reached j hj
            rcases List.mem_append.mp hp with hp | hp
            · have hedge : p ∈ next i := (List.mem_filter.mp (List.mem_reverse.mp hp)).1
              exact ⟨i, List.mem_cons_self, .head hedge hreach⟩
            · exact ⟨p, List.mem_cons_of_mem i hp, hreach⟩

/-! ## Components -/

/-- Reached along the edges. -/
abbrev Reaches (R : ι → ι → Prop) : ι → ι → Prop := Relation.ReflTransGen R

omit [DecidableEq ι] in
/-- Edges that go both ways can be gone back. -/
theorem reaches_symm {R : ι → ι → Prop} (hsymm : ∀ i j, R i j → R j i) {i j : ι}
    (h : Reaches R i j) : Reaches R j i := by
  induction h with
  | refl => exact .refl
  | tail _ hedge ih => exact .head (hsymm _ _ hedge) ih

/-- What has been visited is closed under going on. -/
def Closed (next : ι → List ι) (visited : List ι) : Prop := ∀ i ∈ visited, ∀ j ∈ next i, j ∈ visited

omit [DecidableEq ι] in
/-- What is reached from a closed set is in it. -/
theorem Closed.reaches (h : Closed next visited) {i j : ι} (hi : i ∈ visited)
    (hreach : Reaches (fun i j => j ∈ next i) i j) : j ∈ visited := by
  induction hreach with
  | refl => exact hi
  | tail _ hedge ih => exact h _ ih _ hedge

/-- **A traversal from one node** finds the connected component of the node. -/
theorem visit_component {support : Finset ι} (hsupport : ∀ i ∉ support, next i = [])
    (hfuel : 1 + ahead next support visited ≤ fuel) (hsymm : ∀ i j, j ∈ next i → i ∈ next j)
    (hclosed : Closed next visited) (hstart : start ∉ visited) :
    ∃ found, visit next fuel [start] [] visited = (found, visited ++ found) ∧ found.Nodup ∧
      (∀ i ∈ found, i ∉ visited) ∧ Closed next (visited ++ found) ∧
      ∀ i, i ∈ found ↔ Reaches (fun i j => j ∈ next i) start i := by
  obtain ⟨found, hvisit, hadds⟩ := @visit_adds ι _ next fuel [start] [] visited support hsupport
    (by simpa using hfuel)
  have hclosed' : Closed next (visited ++ found) := by
    intro i hi j hj
    rw [List.mem_append] at hi ⊢
    rcases hi with hi | hi
    · exact Or.inl (hclosed i hi j hj)
    · exact hadds.closed i hi j hj
  refine ⟨found, hvisit, hadds.nodup, hadds.fresh, hclosed', fun i => ⟨fun hi => ?_, fun hreach => ?_⟩⟩
  · obtain ⟨p, hp, hreach⟩ := hadds.reached i hi
    rwa [List.mem_singleton.mp hp] at hreach
  · have hmem : start ∈ visited ++ found := by simpa using hadds.handled start (by simp)
    rcases List.mem_append.mp (hclosed'.reaches hmem hreach) with hi | hi
    · -- The edges go both ways, so the start would have been visited with the node.
      have hback := reaches_symm hsymm hreach
      exact absurd (hclosed.reaches hi hback) hstart
    · exact hi

/-- The traversals from all the nodes that have not been visited. -/
def gather (next : ι → List ι) (fuel : ℕ) : List ι → List ι → List (List ι)
  | [], _ => []
  | i :: nodes, visited =>
      if i ∈ visited then gather next fuel nodes visited
      else
        let found := visit next fuel [i] [] visited
        found.1 :: gather next fuel nodes found.2

/-- A list of the connected components of some nodes. -/
structure Components (R : ι → ι → Prop) (nodes : List ι) (components : List (List ι)) : Prop where
  nodup : ∀ c ∈ components, c.Nodup
  connected : ∀ c ∈ components, ∃ i ∈ nodes, ∀ j, j ∈ c ↔ Reaches R i j
  disjoint : components.Pairwise List.Disjoint
  covers : ∀ i ∈ nodes, ∃ c ∈ components, i ∈ c

/-- **The components of the nodes.** -/
theorem gather_components {support : Finset ι} (hsupport : ∀ i ∉ support, next i = [])
    (hfuel : 1 + ahead next support [] ≤ fuel) (hsymm : ∀ i j, j ∈ next i → i ∈ next j) :
    Components (fun i j => j ∈ next i) nodes (gather next fuel nodes []) := by
  -- What has been visited is closed, and the components to come avoid it.
  have hall (nodes visited : List ι) (hclosed : Closed next visited) :
      (∀ c ∈ gather next fuel nodes visited, c.Nodup ∧ (∀ i ∈ c, i ∉ visited) ∧
        ∃ i ∈ nodes, ∀ j, j ∈ c ↔ Reaches (fun i j => j ∈ next i) i j) ∧
      (gather next fuel nodes visited).Pairwise List.Disjoint ∧
      ∀ i ∈ nodes, i ∈ visited ∨ ∃ c ∈ gather next fuel nodes visited, i ∈ c := by
    induction nodes generalizing visited with
    | nil => simp [gather]
    | cons i nodes ih =>
        rw [gather]
        split_ifs with hi
        · obtain ⟨hcomponents, hdisjoint, hcovers⟩ := ih visited hclosed
          refine ⟨fun c hc => ?_, hdisjoint, List.forall_mem_cons.mpr ⟨Or.inl hi, hcovers⟩⟩
          obtain ⟨hnodup, hfresh, j, hj, hconnected⟩ := hcomponents c hc
          exact ⟨hnodup, hfresh, j, List.mem_cons_of_mem i hj, hconnected⟩
        have hahead : ahead next support visited ≤ ahead next support [] := by
          apply Finset.sum_le_sum_of_subset
          intro j hj
          simpa using (Finset.mem_filter.mp hj).1
        have hbound : 1 + ahead next support visited ≤ fuel := by omega
        obtain ⟨found, hvisit, hnodup, hfresh, hclosed', hconnected⟩ :=
          visit_component hsupport hbound hsymm hclosed hi
        obtain ⟨hcomponents, hdisjoint, hcovers⟩ := ih (visited ++ found) hclosed'
        have hself : i ∈ found := (hconnected i).mpr .refl
        rw [hvisit]
        refine ⟨List.forall_mem_cons.mpr ⟨⟨hnodup, hfresh, i, List.mem_cons_self, hconnected⟩, ?_⟩,
          List.pairwise_cons.mpr ⟨?_, hdisjoint⟩, List.forall_mem_cons.mpr ⟨?_, ?_⟩⟩
        · intro c hc
          obtain ⟨hnodup', hfresh', j, hj, hconnected'⟩ := hcomponents c hc
          exact ⟨hnodup', fun k hk hvisited => hfresh' k hk (List.mem_append_left _ hvisited), j,
            List.mem_cons_of_mem i hj, hconnected'⟩
        · intro c hc k hk hkc
          exact (hcomponents c hc).2.1 k hkc (List.mem_append_right _ hk)
        · exact Or.inr ⟨found, List.mem_cons_self, hself⟩
        · intro j hj
          rcases hcovers j hj with hvisited | ⟨c, hc, hjc⟩
          · rcases List.mem_append.mp hvisited with hvisited | hfound
            · exact Or.inl hvisited
            · exact Or.inr ⟨found, List.mem_cons_self, hfound⟩
          · exact Or.inr ⟨c, List.mem_cons_of_mem found hc, hjc⟩
  obtain ⟨hcomponents, hdisjoint, hcovers⟩ := hall nodes [] (by simp [Closed])
  exact {
    nodup := fun c hc => (hcomponents c hc).1
    connected := fun c hc => (hcomponents c hc).2.2
    disjoint := hdisjoint
    covers := fun i hi => by simpa using hcovers i hi }

namespace Components

variable {R R' : ι → ι → Prop} {nodes' : List ι} {components components' : List (List ι)} {c : List ι}

omit [DecidableEq ι] in
/-- No component is empty. -/
theorem ne_nil (h : Components R nodes components) (hc : c ∈ components) : c ≠ [] := by
  obtain ⟨i, -, hconnected⟩ := h.connected c hc
  exact List.ne_nil_of_mem ((hconnected i).mpr .refl)

omit [DecidableEq ι] in
/-- A component is that of each of its nodes. -/
theorem of_mem (h : Components R nodes components) (hsymm : ∀ i j, R i j → R j i) (hc : c ∈ components) {i : ι}
    (hi : i ∈ c) (j : ι) : j ∈ c ↔ Reaches R i j := by
  obtain ⟨k, -, hconnected⟩ := h.connected c hc
  have hki : Reaches R k i := (hconnected i).mp hi
  have hik : Reaches R i k := reaches_symm hsymm hki
  rw [hconnected]
  exact ⟨hik.trans, hki.trans⟩

omit [DecidableEq ι] in
/-- The components hold what can be reached from the nodes. -/
theorem exists_mem_iff (h : Components R nodes components) (hsymm : ∀ i j, R i j → R j i) {i : ι} :
    (∃ c ∈ components, i ∈ c) ↔ ∃ j ∈ nodes, Reaches R j i := by
  constructor
  · rintro ⟨c, hc, hi⟩
    obtain ⟨j, hj, hconnected⟩ := h.connected c hc
    exact ⟨j, hj, (hconnected i).mp hi⟩
  · rintro ⟨j, hj, hreach⟩
    obtain ⟨c, hc, hjc⟩ := h.covers j hj
    exact ⟨c, hc, (h.of_mem hsymm hc hjc i).mpr hreach⟩

/-- The components as sets, which are different from each other. -/
theorem nodup_toFinset (h : Components R nodes components) :
    (components.map List.toFinset).Nodup := by
  rw [List.Nodup, List.pairwise_map]
  refine h.disjoint.imp_of_mem fun {c c'} hc _ hdisjoint heq => ?_
  obtain ⟨i, hi⟩ := List.exists_mem_of_ne_nil c (h.ne_nil hc)
  refine hdisjoint hi ?_
  rw [← List.mem_toFinset, ← heq, List.mem_toFinset]
  exact hi

/-- The components are the sets of what can be reached from a node. -/
theorem mem_toFinset (h : Components R nodes components) (hsymm : ∀ i j, R i j → R j i) {s : Finset ι} :
    s ∈ components.map List.toFinset ↔ ∃ i ∈ nodes, ∀ j, j ∈ s ↔ Reaches R i j := by
  constructor
  · intro hs
    obtain ⟨c, hc, rfl⟩ := List.mem_map.mp hs
    simpa using h.connected c hc
  · rintro ⟨i, hi, hs⟩
    obtain ⟨c, hc, hic⟩ := h.covers i hi
    refine List.mem_map.mpr ⟨c, hc, ?_⟩
    ext j
    rw [List.mem_toFinset, hs, h.of_mem hsymm hc hic]

/-- **The components do not depend on the order of the nodes.** -/
theorem perm (h : Components R nodes components) (h' : Components R' nodes' components')
    (hsymm : ∀ i j, R i j → R j i) (hR : ∀ i j, R i j ↔ R' i j) (hnodes : ∀ i, i ∈ nodes ↔ i ∈ nodes') :
    (components.map List.toFinset).Perm (components'.map List.toFinset) := by
  obtain rfl : R = R' := by
    funext i j
    exact propext (hR i j)
  refine (List.perm_ext_iff_of_nodup h.nodup_toFinset h'.nodup_toFinset).mpr fun s => ?_
  simp [h.mem_toFinset hsymm, h'.mem_toFinset hsymm, hnodes]

/-- What is read off the components as sets does not depend on the order of the nodes either. -/
theorem filterMap_perm {β : Type} {f f' : List ι → Option β} (h : Components R nodes components)
    (h' : Components R' nodes' components') (hsymm : ∀ i j, R i j → R j i)
    (hR : ∀ i j, R i j ↔ R' i j) (hnodes : ∀ i, i ∈ nodes ↔ i ∈ nodes')
    (hf : ∀ c ∈ components, ∀ c' ∈ components', (∀ i, i ∈ c ↔ i ∈ c') → f c = f' c') :
    (components.filterMap f).Perm (components'.filterMap f') := by
  have hperm := h.perm h' hsymm hR hnodes
  have hsame {c c' : List ι} (heq : c.toFinset = c'.toFinset) (i : ι) : i ∈ c ↔ i ∈ c' := by
    rw [← List.mem_toFinset, heq, List.mem_toFinset]
  -- Both lists are read off the sets by one function.
  let g (s : Finset ι) : Option β := (components.find? fun c => c.toFinset = s).bind f
  have hg {s : Finset ι} (hs : s ∈ components.map List.toFinset) :
      ∃ c ∈ components, c.toFinset = s ∧ g s = f c := by
    obtain ⟨c, hc, hcs⟩ := List.mem_map.mp hs
    have hsome : (components.find? fun c => c.toFinset = s).isSome :=
      List.find?_isSome.mpr ⟨c, hc, by simpa using hcs⟩
    obtain ⟨c₀, hfind⟩ := Option.isSome_iff_exists.mp hsome
    refine ⟨c₀, List.mem_of_find?_eq_some hfind, by simpa using List.find?_some hfind, ?_⟩
    simp [g, hfind]
  have hleft : components.filterMap f = (components.map List.toFinset).filterMap g := by
    rw [List.filterMap_map]
    apply List.filterMap_congr
    intro c hc
    have hmem := List.mem_map_of_mem (f := List.toFinset) hc
    obtain ⟨c₀, hc₀, heq, hgc⟩ := hg hmem
    obtain ⟨c', hc', heq'⟩ := List.mem_map.mp (hperm.mem_iff.mp hmem)
    calc
      f c = f' c' := hf c hc c' hc' (hsame heq'.symm)
      _ = f c₀ := (hf c₀ hc₀ c' hc' (hsame (heq.trans heq'.symm))).symm
      _ = g c.toFinset := hgc.symm
  have hright : components'.filterMap f' = (components'.map List.toFinset).filterMap g := by
    rw [List.filterMap_map]
    apply List.filterMap_congr
    intro c' hc'
    have hmem := hperm.mem_iff.mpr (List.mem_map_of_mem (f := List.toFinset) hc')
    obtain ⟨c₀, hc₀, heq, hgc⟩ := hg hmem
    exact ((hgc.trans (hf c₀ hc₀ c' hc' (hsame heq)))).symm
  rw [hleft, hright]
  exact hperm.filterMap g

end Components

end Traversal
