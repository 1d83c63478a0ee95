import EventTrace.Proofs.Profile.Pictures
import Mathlib.Data.List.Permutation
/-!
# Profile — the tree of all threads is the sum of theirs

Whatever happened to the nesting, a replay leaves siblings distinct in every
frame and every tree (`ThreadState.Apart.step`), and every node stands for some
scope. So a tree is known by what its nodes count path by path, and merging
trees adds path by path, as words add (`Node.sumOf_merged`). Ranked, siblings
stand in one order only, so the tree is known to the last place: it does not
depend on the order in which trees are merged (`Node.ranked_merged_perm`).
-/

namespace EventTrace

namespace Node

variable {n m : Node} {ns : List Node} {path : List Int}

/-! ## Trees by their children -/

theorem sizeOf_lt_of_mem_children {c : Node} (hc : c ∈ n.children) : sizeOf c < sizeOf n := by
  obtain ⟨id, count, inclusive, exclusive, children⟩ := n
  have hlt : sizeOf c < sizeOf children := List.sizeOf_lt_of_mem hc
  simp only [mk.sizeOf_spec]
  omega

/-- What holds of a node when it holds of its children holds of every node. -/
@[elab_as_elim]
theorem childInduction {motive : Node → Prop}
    (node : ∀ n, (∀ c ∈ n.children, motive c) → motive n) (n : Node) : motive n :=
  node n fun c _ => childInduction node c
termination_by sizeOf n
decreasing_by exact sizeOf_lt_of_mem_children ‹_›

theorem mem_nodesAll : m ∈ nodesAll ns ↔ ∃ c ∈ ns, m ∈ c.nodes := by
  induction ns with
  | nil => simp
  | cons c ns ih => rw [nodesAll, List.mem_append, ih, List.exists_mem_cons_iff]

/-- A node of the tree is the node itself or a node of one of its children. -/
theorem mem_nodes : m ∈ n.nodes ↔ m = n ∨ ∃ c ∈ n.children, m ∈ c.nodes := by
  rw [nodes_eq, List.mem_cons, mem_nodesAll]

/-- A child is on the path of its id. -/
theorem at?_child (h : (n.children.map Node.id).Nodup) {c : Node} (hc : c ∈ n.children)
    (path : List Int) : n.at? (c.id :: path) = c.at? path := by
  rw [at?, (find?_eq_some_iff h).mpr ⟨hc, rfl⟩]
  rfl

/-- The node on a path counts what the nodes of that path do. -/
theorem amount_at? (h : Distinct n.children) (hpath : path ≠ []) :
    ((n.at? path).map amount).getD 0 = amountIn path n.children := by
  obtain ⟨id, rest, rfl⟩ := List.exists_cons_of_ne_nil hpath
  rw [← amountAt_eq _ h, amountAt_cons]

/-- **There is a node on a path exactly if the path counts some scope.** -/
theorem isSome_at?_iff (h : Distinct n.children) (hcounted : AllCounted n.children)
    (hpath : path ≠ []) : (n.at? path).isSome ↔ 0 < (amountIn path n.children).1 := by
  rw [← amount_at? h hpath]
  cases hn : n.at? path with
  | none => simp
  | some m =>
    obtain ⟨id, rest, rfl⟩ := List.exists_cons_of_ne_nil hpath
    have hpos : 0 < m.count := (hcounted m (mem_nodesAll_of_at? hn)).pos
    exact ⟨fun _ => hpos, fun _ => rfl⟩

/-! ## The order of siblings -/

/-- A sibling stands before another if it took more ticks, or as many and its id
is less. -/
def Before (a b : Node) : Prop :=
  b.inclusive < a.inclusive ∨ a.inclusive = b.inclusive ∧ a.id < b.id

/-- At every level siblings have distinct ids and stand in order. -/
structure Orderly (root : Node) : Prop where
  distinct : ∀ n ∈ root.nodes, (n.children.map Node.id).Nodup
  ordered : ∀ n ∈ root.nodes, n.children.Pairwise Before

theorem Orderly.child (h : n.Orderly) {c : Node} (hc : c ∈ n.children) : c.Orderly where
  distinct m hm := h.distinct m (mem_nodes.mpr (.inr ⟨c, hc, hm⟩))
  ordered m hm := h.ordered m (mem_nodes.mpr (.inr ⟨c, hc, hm⟩))

theorem Orderly.distinct_children (h : n.Orderly) : (n.children.map Node.id).Nodup :=
  h.distinct n (mem_nodes.mpr (.inl rfl))

theorem Orderly.ordered_children (h : n.Orderly) : n.children.Pairwise Before :=
  h.ordered n (mem_nodes.mpr (.inl rfl))

theorem ids_ranked (n : Node) : (n.ranked.children.map Node.id).Perm (n.children.map Node.id) := by
  have hids : (n.children.map ranked).map Node.id = n.children.map Node.id := by
    rw [List.map_map]
    exact List.map_congr_left fun c _ => id_ranked c
  exact hids ▸ n.children_ranked.map Node.id

/-- Ranking puts distinct siblings in order. -/
theorem ordered_children_ranked (h : (n.children.map Node.id).Nodup) :
    n.ranked.children.Pairwise Before := by
  have hdistinct : n.ranked.children.Pairwise fun a b => a.id ≠ b.id :=
    List.pairwise_map.mp (n.ids_ranked.nodup_iff.mpr h)
  have hahead : n.ranked.children.Pairwise fun a b =>
      Ranking.ahead (a.inclusive, a.id) (b.inclusive, b.id) = true := by
    obtain ⟨id, count, inclusive, exclusive, children⟩ := n
    rw [ranked]
    exact pairwise_rankBy _ _
  refine (hdistinct.and hahead).imp fun {a b} ⟨hne, hahead⟩ => ?_
  rcases Ranking.ahead_iff.mp hahead with hlt | ⟨heq, hle⟩
  · exact .inl hlt
  · exact .inr ⟨heq, lt_of_le_of_ne hle hne⟩

/-- **Ranking puts a tree of distinct siblings in order**, at every level. -/
theorem orderly_ranked (n : Node) (h : Distinct n.children) : n.ranked.Orderly := by
  induction n using childInduction with
  | node n ih =>
    have hbelow : ∀ c ∈ n.ranked.children, c.Orderly := by
      intro c hc
      obtain ⟨child, hchild, rfl⟩ := List.mem_map.mp (n.children_ranked.mem_iff.mp hc)
      exact ih child hchild (h.of_mem hchild)
    constructor
    · intro m hm
      rcases mem_nodes.mp hm with rfl | ⟨c, hc, hm⟩
      · exact n.ids_ranked.nodup_iff.mpr h.1
      · exact (hbelow c hc).distinct m hm
    · intro m hm
      rcases mem_nodes.mp hm with rfl | ⟨c, hc, hm⟩
      · exact ordered_children_ranked h.1
      · exact (hbelow c hc).ordered m hm

/-- **A tree in order is known by what it counts path by path.** -/
theorem Orderly.ext (hn : n.Orderly) (hm : m.Orderly) (hid : n.id = m.id)
    (h : ∀ path, (n.at? path).map amount = (m.at? path).map amount) : n = m := by
  induction n using childInduction generalizing m with
  | node n ih =>
    -- a child of one tree has its match in the other, and the two count the same
    have hmatch : ∀ {a b : Node}, a.Orderly → b.Orderly →
        (∀ path, (a.at? path).map amount = (b.at? path).map amount) → ∀ c ∈ a.children,
        ∃ d ∈ b.children, c.id = d.id ∧
          ∀ path, (c.at? path).map amount = (d.at? path).map amount := by
      intro a b ha hb h c hc
      have hone := h [c.id]
      rw [at?_child ha.distinct_children hc, at?] at hone
      obtain ⟨d, hd, -⟩ := Option.map_eq_some_iff.mp hone.symm
      obtain ⟨d, hfind, -⟩ := Option.bind_eq_some_iff.mp hd
      obtain ⟨hd, hid⟩ := (find?_eq_some_iff hb.distinct_children).mp hfind
      refine ⟨d, hd, hid.symm, fun path => ?_⟩
      rw [← at?_child ha.distinct_children hc, h, ← hid, at?_child hb.distinct_children hd]
    have hmem : ∀ c, c ∈ n.children ↔ c ∈ m.children := by
      intro c
      constructor
      · intro hc
        obtain ⟨d, hd, hid, hpaths⟩ := hmatch hn hm h c hc
        rwa [ih c hc (hn.child hc) (hm.child hd) hid hpaths]
      · intro hc
        obtain ⟨d, hd, hid, hpaths⟩ := hmatch hm hn (fun path => (h path).symm) c hc
        rwa [← ih d hd (hn.child hd) (hm.child hc) hid.symm fun path => (hpaths path).symm]
    have hperm : n.children.Perm m.children :=
      (List.perm_ext_iff_of_nodup (.of_map _ hn.distinct_children)
        (.of_map _ hm.distinct_children)).mpr hmem
    have hchildren : n.children = m.children := by
      refine hperm.eq_of_pairwise (fun a b _ _ hab hba => ?_) hn.ordered_children
        hm.ordered_children
      rcases hab with hab | hab <;> rcases hba with hba | hba <;> omega
    have hroot : n.amount = m.amount := Option.some.inj (h [])
    obtain ⟨id, count, inclusive, exclusive, children⟩ := n
    obtain ⟨id', count', inclusive', exclusive', children'⟩ := m
    simp only [amount, Prod.mk.injEq] at hroot hid hchildren
    obtain ⟨rfl, rfl, rfl⟩ := hroot
    rw [hid, hchildren]

/-! ## Sums of trees -/

/-- A tree as a replay makes it: a root over distinct siblings, of which each
stands for some scope. -/
structure IsTree (n : Node) : Prop where
  root : n = Node.root n.children
  distinct : Distinct n.children
  counted : AllCounted n.children

section Groups

variable {α : Type} (nodesOf : α → List Node) {groups : List α} {siblings : List Node}

/-- Joining groups of distinct siblings leaves siblings distinct. -/
theorem Distinct.addGroups (h : ∀ group ∈ groups, Distinct (nodesOf group))
    (hsiblings : Distinct siblings) :
    Distinct
      (groups.foldl (fun siblings group => Node.addAllTo (nodesOf group) siblings) siblings) := by
  induction groups generalizing siblings with
  | nil => exact hsiblings
  | cons group rest ih =>
    have hgroup := h group List.mem_cons_self
    exact ih (fun g hg => h g (List.mem_cons_of_mem _ hg))
      (.addAllTo _ (fun n hn => hgroup.of_mem hn) hsiblings)

theorem AllCounted.addGroups (h : ∀ group ∈ groups, AllCounted (nodesOf group))
    (hsiblings : AllCounted siblings) :
    AllCounted
      (groups.foldl (fun siblings group => Node.addAllTo (nodesOf group) siblings) siblings) := by
  induction groups generalizing siblings with
  | nil => exact hsiblings
  | cons group rest ih =>
    exact ih (fun g hg => h g (List.mem_cons_of_mem _ hg))
      (.addAllTo _ (h group List.mem_cons_self) hsiblings)

end Groups

/-- Words hold the ticks of every node of a tree. -/
theorem IsTree.fit (h : n.IsTree) (hm : n.at? path = some m) : m.amount.Fit := by
  cases path with
  | nil =>
    obtain rfl : n = m := Option.some.inj hm
    rw [h.root]
    exact ⟨Ticks.fit_wrap _, Ticks.fit_zero⟩
  | cons id path => exact (h.counted m (mem_nodesAll_of_at? hm)).fit

/-- A tree that is others together: apart from the root it has a node on a path
exactly if one of them has, and each node counts what theirs on its path do, the
ticks as a word has their sum. -/
structure SumOf (whole : Node) (parts : List Node) : Prop where
  there : ∀ path, (whole.at? path).isSome ↔ path = [] ∨ ∃ part ∈ parts, (part.at? path).isSome
  amount : ∀ path n, whole.at? path = some n →
    n.amount =
      Amount.wrapped (parts.map fun part => ((part.at? path).map Node.amount).getD 0).sum

namespace SumOf

variable {whole whole' : Node} {parts parts' : List Node}

theorem perm (h : whole.SumOf parts) (hperm : parts.Perm parts') : whole.SumOf parts' where
  there path := by
    rw [h.there]
    simp only [hperm.mem_iff]
  amount path n hn := by rw [h.amount path n hn, (hperm.map _).sum_eq]

/-- A sum is known by its parts. -/
theorem at?_congr (h : whole.SumOf parts) (h' : whole'.SumOf parts) (path : List Int) :
    (whole.at? path).map Node.amount = (whole'.at? path).map Node.amount := by
  have hboth := (h.there path).trans (h'.there path).symm
  cases hn : whole.at? path with
  | none =>
    rw [hn, Option.isSome_none, Bool.false_eq_true, false_iff,
      Option.not_isSome_iff_eq_none] at hboth
    rw [hboth]
  | some n =>
    obtain ⟨n', hn'⟩ := Option.isSome_iff_exists.mp (hboth.mp (by rw [hn, Option.isSome_some]))
    rw [hn', Option.map_some, Option.map_some, h.amount path n hn, h'.amount path n' hn']

/-- Ranking leaves a sum a sum. -/
theorem ranked (h : whole.SumOf parts) (hwhole : Distinct whole.children)
    (hparts : ∀ part ∈ parts, Distinct part.children) :
    whole.ranked.SumOf (parts.map Node.ranked) where
  there path := by
    rw [at?_ranked path hwhole, Option.isSome_map, h.there]
    simp only [List.mem_map, exists_exists_and_eq_and]
    refine or_congr_right (exists_congr fun part => and_congr_right fun hpart => ?_)
    rw [at?_ranked path (hparts part hpart), Option.isSome_map]
  amount path n hn := by
    rw [at?_ranked path hwhole] at hn
    obtain ⟨m, hm, rfl⟩ := Option.map_eq_some_iff.mp hn
    rw [amount_ranked, h.amount path m hm, List.map_map]
    refine congrArg (fun amounts => Amount.wrapped (List.sum amounts))
      (List.map_congr_left fun part hpart => ?_)
    rw [Function.comp_apply, at?_ranked path (hparts part hpart), Option.map_map]
    congr 2
    exact funext fun c => (amount_ranked c).symm

end SumOf

/-- Trees merged into one, in order. -/
def merged (parts : List Node) : Node :=
  root (parts.foldl (fun siblings part => addAllTo part.children siblings) [])

section Merged

variable {parts parts' : List Node}

theorem isTree_merged (h : ∀ part ∈ parts, part.IsTree) : (merged parts).IsTree where
  root := rfl
  distinct := .addGroups children (fun part hpart => (h part hpart).distinct) distinct_nil
  counted := .addGroups children (fun part hpart => (h part hpart).counted) allCounted_nil

/-- What joining adds to each of a kind, merging adds over all parts. -/
theorem words_merged {f : List Node → Amount} (hnil : f [] = 0)
    (hjoin : ∀ ns siblings : List Node,
      (f (addAllTo ns siblings)).words = (f siblings).words + (f ns).words) (parts : List Node) :
    (f (merged parts).children).words = (parts.map fun part => f part.children).sum.words := by
  have hfold : ∀ siblings : List Node,
      (f (parts.foldl (fun siblings part => addAllTo part.children siblings) siblings)).words =
        (f siblings).words + (parts.map fun part => f part.children).sum.words := by
    induction parts with
    | nil => exact fun siblings => (add_zero _).symm
    | cons part rest ih =>
      intro siblings
      rw [List.foldl_cons, ih, hjoin, List.map_cons, List.sum_cons, map_add, add_assoc]
  show (f (parts.foldl _ [])).words = _
  rw [hfold, hnil, map_zero, zero_add]

/-- Merging adds what the nodes of each path count. -/
theorem words_amountIn_merged (path : List Int) (parts : List Node) :
    (amountIn path (merged parts).children).words =
      (parts.map fun part => amountIn path part.children).sum.words :=
  words_merged (amountIn_nil path) (words_amountIn_addAllTo path) parts

/-- Siblings take as many ticks as before and those that joined them, as a word
has it. -/
theorem wrap_inclusiveSum_addAllTo (ns siblings : List Node) :
    Ticks.wrap (inclusiveSum (addAllTo ns siblings)) =
      Ticks.wrap (inclusiveSum siblings + inclusiveSum ns) := by
  have hone : ∀ (n : Node) (siblings : List Node),
      Ticks.wrap (inclusiveSum (addTo n siblings)) =
        Ticks.wrap (inclusiveSum siblings + n.inclusive) := by
    rintro ⟨i, count, inclusive, exclusive, children⟩ siblings
    rw [addTo]
    induction siblings with
    | nil => rw [place, inclusiveSum_cons, add_comm]
    | cons s rest ih =>
      rw [place]
      split
      · rw [inclusiveSum_cons, Ticks.wrap_wrap_add, inclusiveSum_cons, add_right_comm]
      · rw [inclusiveSum_cons, ← Ticks.wrap_add_wrap, ih, Ticks.wrap_add_wrap, inclusiveSum_cons,
          add_assoc]
  induction ns generalizing siblings with
  | nil => rw [addAllTo, inclusiveSum_nil, add_zero]
  | cons n ns ih =>
    rw [addAllTo, ih, ← Ticks.wrap_wrap_add, hone, Ticks.wrap_wrap_add, inclusiveSum_cons,
      add_assoc]

/-- The roots' ticks add up. -/
theorem words_root_merged (h : ∀ part ∈ parts, part.IsTree) :
    (merged parts).amount.words = (parts.map amount).sum.words := by
  have hjoin : ∀ ns siblings : List Node,
      (root (addAllTo ns siblings)).amount.words =
        (root siblings).amount.words + (root ns).amount.words := by
    intro ns siblings
    rw [← map_add, ← Amount.words_wrapped ((root siblings).amount + _)]
    have hticks : Ticks.wrap (inclusiveSum (addAllTo ns siblings)) =
        Ticks.wrap (Ticks.wrap (inclusiveSum siblings) + Ticks.wrap (inclusiveSum ns)) := by
      rw [wrap_inclusiveSum_addAllTo, Ticks.wrap_wrap_add, Ticks.wrap_add_wrap]
    exact congrArg (fun ticks => Amount.words (0, ticks, 0)) hticks
  have hroots : (parts.map fun part => (root part.children).amount) = parts.map amount :=
    List.map_congr_left fun part hpart => by rw [← (h part hpart).root]
  rw [← hroots]
  exact words_merged (f := fun ns => (root ns).amount) (by decide) hjoin parts

/-- **Merging trees sums them**, path by path. -/
theorem sumOf_merged (h : ∀ part ∈ parts, part.IsTree) : (merged parts).SumOf parts := by
  have htree := isTree_merged h
  constructor
  · intro path
    by_cases hpath : path = []
    · subst hpath
      exact ⟨fun _ => .inl rfl, fun _ => rfl⟩
    · rw [isSome_at?_iff htree.distinct htree.counted hpath,
        Amount.fst_eq_of_words (words_amountIn_merged path parts), Amount.fst_sum_pos,
        or_iff_right hpath]
      refine exists_congr fun part => and_congr_right fun hpart => ?_
      rw [isSome_at?_iff (h part hpart).distinct (h part hpart).counted hpath]
  · intro path n hn
    rw [(htree.fit hn).eq_wrapped_iff]
    by_cases hpath : path = []
    · subst hpath
      obtain rfl : merged parts = n := Option.some.inj hn
      exact words_root_merged h
    · have hown := amount_at? htree.distinct hpath
      rw [hn, Option.map_some, Option.getD_some] at hown
      rw [hown, words_amountIn_merged]
      refine Amount.words_sum_congr fun part hpart => ?_
      rw [amount_at? (h part hpart).distinct hpath]

/-- **The order in which trees are merged does not matter** once siblings are
ranked. -/
theorem ranked_merged_perm (h : ∀ part ∈ parts, part.IsTree) (hperm : parts'.Perm parts) :
    (merged parts').ranked = (merged parts).ranked := by
  have h' : ∀ part ∈ parts', part.IsTree := fun part hpart => h part (hperm.mem_iff.mp hpart)
  have hsum := (sumOf_merged h).ranked (isTree_merged h).distinct fun p hp => (h p hp).distinct
  have hsum' := ((sumOf_merged h').perm hperm).ranked (isTree_merged h').distinct
    fun p hp => (h p hp).distinct
  refine (orderly_ranked _ (isTree_merged h').distinct).ext
    (orderly_ranked _ (isTree_merged h).distinct) ?_ (hsum'.at?_congr hsum)
  rw [id_ranked, id_ranked]
  rfl

end Merged

end Node

/-! ## The trees of a replay -/

namespace ThreadState

variable {s : ThreadState} {p : Pending} {e : Event} {m : Match Pending}

/-- What a thread holds has distinct siblings: in each open frame and among the
finished trees. -/
structure Apart (s : ThreadState) : Prop where
  frames : ∀ f ∈ s.frames, Node.Distinct f.data.children
  roots : Node.Distinct s.roots

namespace Apart

theorem handDown (h : s.Apart) (hp : ∀ n ∈ p.children, Node.Distinct n.children) :
    (s.handDown p).Apart := by
  obtain ⟨frames, roots⟩ := s
  cases frames with
  | nil => exact ⟨h.frames, .addAllTo _ hp h.roots⟩
  | cons top below =>
    refine ⟨fun f hf => ?_, h.roots⟩
    rcases List.mem_cons.mp hf with rfl | hf
    · exact .addAllTo _ hp (h.frames top List.mem_cons_self)
    · exact h.frames f (List.mem_cons_of_mem _ hf)

/-- Taking over what frames hold leaves siblings distinct. -/
theorem adopted (lost : List (Frame Pending)) (hp : Node.Distinct p.children)
    (hlost : ∀ f ∈ lost, Node.Distinct f.data.children) :
    Node.Distinct (lost.foldl (fun p f => p.adopt f.data) p).children := by
  induction lost generalizing p with
  | nil => exact hp
  | cons f rest ih =>
    have hf := hlost f List.mem_cons_self
    exact ih (.addAllTo _ (fun n hn => hf.of_mem hn) hp) fun g hg =>
      hlost g (List.mem_cons_of_mem _ hg)

/-- A matched frame is handed down with its siblings distinct, valid or not. -/
theorem finish (h : s.Apart) (hframes : s.frames = m.abandoned.reverse ++ m.frame :: m.below) :
    (s.finish e m).1.Apart := by
  have hall : ∀ f ∈ m.abandoned.reverse ++ m.frame :: m.below, Node.Distinct f.data.children :=
    hframes ▸ h.frames
  have htaken := adopted m.abandoned (hall m.frame (by simp)) fun f hf => hall f (by simp [hf])
  have hbelow : Apart { s with frames := m.below } :=
    ⟨fun f hf => hall f (by simp [hf]), h.roots⟩
  unfold ThreadState.finish
  generalize m.abandoned.foldl (fun p lost => p.adopt lost.data) m.frame.data = taken at htaken
  dsimp only
  split
  · exact hbelow.handDown fun n hn => htaken.of_mem hn
  · refine hbelow.handDown fun n hn => ?_
    obtain rfl := List.mem_singleton.mp hn
    exact htaken

/-- **No event makes siblings share an id.** -/
theorem step (h : s.Apart) (strict : Bool) (e : Event) : (s.step strict e).1.Apart := by
  unfold ThreadState.step
  split
  · refine ⟨fun f hf => ?_, h.roots⟩
    rcases List.mem_cons.mp hf with rfl | hf
    · exact Node.distinct_nil
    · exact h.frames f hf
  · unfold ThreadState.close
    dsimp only
    cases hmatch : (Nesting.close strict e.id s.frames).matched with
    | none => exact h
    | some m => exact h.finish (Nesting.eq_of_close hmatch)
  · exact h

theorem run (strict : Bool) (events : List Event) : (ThreadState.run strict events).Apart := by
  induction events using List.reverseRecOn with
  | nil => exact ⟨fun f hf => absurd hf List.not_mem_nil, Node.distinct_nil⟩
  | append_singleton events e ih =>
    rw [run_append]
    exact ih.step strict e

theorem trees (h : s.Apart) : Node.Distinct s.trees :=
  .addGroups (fun f : Frame Pending => f.data.children)
    (fun f hf => h.frames f (List.mem_reverse.mp hf)) h.roots

end Apart

end ThreadState

namespace Replay

variable {strict : Bool} {events : List Event}

/-- **A replay makes trees**, whatever its events. -/
theorem isTree_of_mem_threadTrees {tree : Int × Node}
    (h : tree ∈ (run strict events).threadTrees) : tree.2.IsTree := by
  obtain ⟨s, hs, hroot⟩ := mem_threadTrees.mp h
  refine ⟨?_, ?_, (Tallied.run strict events).trees h⟩
  · rw [hroot]
    rfl
  · rw [get?_run_eq] at hs
    split at hs
    · rw [hroot, ← Option.some.inj hs]
      exact (ThreadState.Apart.run strict _).trees
    · exact nomatch hs

theorem globalTree_eq_merged (r : Replay) :
    r.globalTree = Node.merged (r.threadTrees.map Prod.snd) := by
  rw [globalTree, Node.merged, List.foldl_map]

end Replay

/-! ## Reports -/

/-- A reported tree that shows a tree of ticks: it has a node where that has one,
with its id and figures and with its children in their order. -/
structure CallNode.Reports (rate : TickRate) (root : CallNode) (ticks : Node) : Prop where
  there : ∀ path, (root.at? path).isSome ↔ (ticks.at? path).isSome
  shows : ∀ path c n, root.at? path = some c → ticks.at? path = some n →
    c.id = n.id ∧ c.count = n.count ∧ c.inclusiveMs = rate.toMillis n.inclusive ∧
      c.exclusiveMs = rate.toMillis n.exclusive ∧
      c.children.map CallNode.id = n.children.map Node.id

/-- A reported root shows its ranked tree. -/
theorem Recording.reports_showRoot (r : Recording) (root : Node) :
    (r.showRoot root).Reports r.rate root.ranked := by
  have hids : ∀ n : Node, (n.shown r.rate r.nameOf).children.map CallNode.id =
      n.children.map Node.id := by
    intro n
    rw [Node.shown_eq, List.map_map]
    exact List.map_congr_left fun c _ => by rw [Function.comp_apply, Node.shown_eq]
  have hbelow : ∀ id rest, (r.showRoot root).at? (id :: rest) =
      (root.ranked.at? (id :: rest)).map (Node.shown r.rate r.nameOf) := fun id rest =>
    Node.at?_shown (id :: rest) root.ranked
  constructor
  · intro path
    cases path with
    | nil => exact ⟨fun _ => rfl, fun _ => rfl⟩
    | cons id rest => rw [hbelow, Option.isSome_map]
  · intro path c n hc hn
    cases path with
    | nil =>
      obtain rfl : r.showRoot root = c := Option.some.inj hc
      obtain rfl : root.ranked = n := Option.some.inj hn
      refine ⟨?_, ?_, ?_, ?_, hids root.ranked⟩ <;> rw [Recording.showRoot, Node.shown_eq]
    | cons id rest =>
      rw [hbelow, hn, Option.map_some, Option.some.injEq] at hc
      subst hc
      refine ⟨?_, ?_, ?_, ?_, hids n⟩ <;> rw [Node.shown_eq]

/-- **The tree of all threads is the sum of the threads' trees.** In every
profile, whatever was damaged: apart from the root it has a node on a path of ids
exactly if the tree of some thread has one, and the node counts the scopes and
the ticks that the threads' nodes on the path do, wrapped around where no word
holds them; its root takes the ticks of their roots. In every tree siblings have
distinct ids and stand by inclusive ticks, the most first, and then by id, the
least first. The trees are reported so. The threads' trees give the same in
whatever order they are merged, and a profile that is not by threads differs in
the list of threads only: it has thread zero, with the tree of all. -/
theorem global_tree_sums_threads (r : Recording) (o : ProfileOptions) :
    let p := r.profile o
    let replay := Replay.run o.strict (r.profiledEvents o)
    let global := replay.globalTree.ranked
    let trees := replay.threadTrees.map fun tree => (tree.1, tree.2.ranked)
    global.SumOf (trees.map Prod.snd) ∧
    (∀ tree ∈ global :: trees.map Prod.snd, tree.Orderly) ∧
    p.global.Reports r.rate global ∧
    (o.byThread = true → List.Forall₂ (fun trace tree => trace.thread = tree.1 ∧
      trace.root.Reports r.rate tree.2) p.threads trees) ∧
    (∀ parts, parts.Perm (replay.threadTrees.map Prod.snd) →
      (Node.merged parts).ranked = global) ∧
    r.profile { o with byThread := false } =
      { r.profile { o with byThread := true } with threads := [⟨0, none, p.global⟩] } := by
  intro p replay global trees
  have htrees : ∀ part ∈ replay.threadTrees.map Prod.snd, part.IsTree := by
    intro part hpart
    obtain ⟨tree, htree, rfl⟩ := List.mem_map.mp hpart
    exact Replay.isTree_of_mem_threadTrees htree
  have hmerged := replay.globalTree_eq_merged
  have hglobal : replay.globalTree.IsTree := hmerged ▸ Node.isTree_merged htrees
  have hranked : trees.map Prod.snd = (replay.threadTrees.map Prod.snd).map Node.ranked := by
    rw [List.map_map, List.map_map]
    rfl
  refine ⟨?_, ?_, r.reports_showRoot _, fun hby => ?_, fun parts hparts => ?_, rfl⟩
  · have hsum : replay.globalTree.SumOf (replay.threadTrees.map Prod.snd) :=
      hmerged ▸ Node.sumOf_merged htrees
    rw [hranked]
    exact hsum.ranked hglobal.distinct fun part hpart => (htrees part hpart).distinct
  · intro tree htree
    rcases List.mem_cons.mp htree with rfl | htree
    · exact Node.orderly_ranked _ hglobal.distinct
    · rw [hranked] at htree
      obtain ⟨part, hpart, rfl⟩ := List.mem_map.mp htree
      exact Node.orderly_ranked _ (htrees part hpart).distinct
  · have hthreads : p.threads = replay.threadTrees.map fun tree =>
        ⟨tree.1, r.threadNames.get? tree.1, r.showRoot tree.2⟩ := if_pos hby
    rw [hthreads, List.forall₂_map_left_iff, List.forall₂_map_right_iff, List.forall₂_same]
    exact fun tree _ => ⟨rfl, r.reports_showRoot tree.2⟩
  · rw [Node.ranked_merged_perm htrees hparts, ← hmerged]

/-- Two threads that call one id from another; the second abandons a scope, and
ends with one that the first never has. -/
def Recording.alike : Recording where
  chunks := [[mark 1 1 0 .scopeBegin, mark 1 2 1 .scopeBegin, mark 1 2 3 .scopeEnd,
      mark 1 2 4 .scopeBegin, mark 1 2 5 .scopeEnd, mark 1 1 6 .scopeEnd],
    [mark 2 1 0 .scopeBegin, mark 2 2 1 .scopeBegin, mark 2 2 2 .scopeEnd, mark 2 4 3 .scopeBegin,
      mark 2 1 4 .scopeEnd, mark 2 3 5 .scopeBegin, mark 2 3 20 .scopeEnd]]
  startTime := 0
  endTime := 20

/-- The two have a node on the path they share, which counts what both do; the id
that only the second has comes first, for it took more ticks. -/
theorem global_tree_sums_threads_alike :
    let r := Recording.alike
    let replay := Replay.run false r.events
    let global := replay.globalTree.ranked
    let trees := replay.threadTrees.map fun tree => (tree.1, tree.2.ranked)
    (global.at? [1, 2]).map Node.amount = some (3, 4, 4) ∧
    (trees.map fun tree => (tree.2.at? [1, 2]).map Node.amount) =
      [some (2, 3, 3), some (1, 1, 1)] ∧
    global.children.map Node.id = [3, 1] ∧
    global.SumOf (trees.map Prod.snd) ∧ global.Orderly ∧
    List.Forall₂ (fun trace tree => trace.thread = tree.1 ∧ trace.root.Reports r.rate tree.2)
      (r.profile {}).threads trees ∧
    (Node.merged (replay.threadTrees.map Prod.snd).reverse).ranked = global := by
  have hboth : ((Replay.run false Recording.alike.events).globalTree.ranked.at? [1, 2]).map
      Node.amount = some (3, 4, 4) := by cbv
  have heach : ((Replay.run false Recording.alike.events).threadTrees.map fun tree =>
      (tree.2.ranked.at? [1, 2]).map Node.amount) = [some (2, 3, 3), some (1, 1, 1)] := by cbv
  have hids : (Replay.run false Recording.alike.events).globalTree.ranked.children.map Node.id =
      [3, 1] := by cbv
  intro r replay global trees
  obtain ⟨hsum, horderly, -, hreports, hmerged, -⟩ := global_tree_sums_threads r {}
  refine ⟨hboth, ?_, hids, hsum, horderly global List.mem_cons_self, hreports rfl,
    hmerged _ (List.reverse_perm _)⟩
  rw [List.map_map]
  exact heach

end EventTrace
