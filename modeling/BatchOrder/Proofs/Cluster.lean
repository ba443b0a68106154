import Mathlib.Algebra.GroupWithZero.Nat
import BatchOrder.Cluster
import BatchOrder.Proofs.Connectivity
import BatchOrder.Proofs.KeepFirst

/-!
# Clusters share no account

The clusters of a batch collect its transactions by the component of the account of the main action.
As all accounts of a transaction belong to that component, two clusters never name a common account.

Main results:

- Theorem `classes_eq`: a class consists of the elements with its key.
- Theorems `classes_map` and `classes_filter`: classes under maps and filters.
- Theorem `flatten_classes_perm`: classes lose no element and double none.
- Theorem `exists_mem_classes_iff`: elements share a class exactly if they have one key.
- Theorem `pairwise_head?_classes`: classes stand in the order of their first elements.
- Theorem `clusters_eq`: no transaction is skipped when a batch is divided into clusters.
- Theorem `flatten_clusters_perm`: so the clusters have the transactions of the batch and no others.
- Theorem `apart_clusters`: different clusters name different accounts.
- Theorem `clusters_filter`: the clusters of a part that shares no account with the rest.
-/

namespace BatchOrder

/-! ## Classes -/

/-- There is a class for every key that occurs, and it consists of the elements with that key. -/
theorem classes_eq {α κ : Type} [BEq κ] [Hashable κ] [LawfulBEq κ] (key : α → κ) (xs : List α) :
    classes key xs =
      (keepFirst id (xs.map key)).map fun k => xs.filter fun x => key x == k := by
  have hclass (ys : List α) (k : κ) :
      (ys.foldr (fun x m => m.alter (key x) fun c => some (x :: c.getD []))
        (∅ : Std.HashMap κ (List α))).getD k [] = ys.filter fun x => key x == k := by
    induction ys with
    | nil => simp
    | cons y ys ih =>
        rw [List.foldr_cons, Std.HashMap.getD_alter, List.filter_cons]
        by_cases hyk : key y = k
        · subst hyk
          rw [← ih]
          simp [Std.HashMap.getD_eq_getD_getElem?]
        · simp [hyk, ih]
  unfold classes
  exact List.map_congr_left fun k _ => hclass xs k

/-- Filtering by each of some keys collects every element whose key is among them once.  The other
keys find nothing among the elements with the first one. -/
theorem flatMap_filter_perm {α κ : Type} [BEq κ] [LawfulBEq κ] {key : α → κ} {xs : List α}
    {ks : List κ} (hnodup : ks.Nodup) (hkeys : ∀ x ∈ xs, key x ∈ ks) :
    (ks.flatMap fun k => xs.filter fun x => key x == k).Perm xs := by
  induction ks generalizing xs with
  | nil =>
      rw [List.eq_nil_iff_forall_not_mem.2 fun x hx => List.not_mem_nil (hkeys x hx)]
      exact .refl []
  | cons k ks ih =>
      rcases List.nodup_cons.1 hnodup with ⟨hk, hnodup⟩
      have hrest : ∀ x ∈ xs.filter (fun x => !(key x == k)), key x ∈ ks := by
        intro x hx
        rcases List.mem_filter.1 hx with ⟨hx, hne⟩
        rcases List.mem_cons.1 (hkeys x hx) with rfl | hmem
        · simp at hne
        · exact hmem
      have hother : (ks.flatMap fun j => xs.filter fun x => key x == j) =
          ks.flatMap fun j => (xs.filter fun x => !(key x == k)).filter fun x => key x == j := by
        apply List.flatMap_congr
        intro j hj
        rw [List.filter_filter]
        apply List.filter_congr
        intro x _
        by_cases hxj : key x = j
        · have hne : key x ≠ k := fun hxk => hk (hxk ▸ hxj ▸ hj)
          simp [hne]
        · simp [hxj]
      rw [List.flatMap_cons, hother]
      exact ((ih hnodup hrest).append_left _).trans (List.filter_append_perm _ xs)

section Classes

variable {α β κ κ' : Type} [BEq κ] [Hashable κ] [LawfulBEq κ] [BEq κ'] [Hashable κ'] [LawfulBEq κ']
variable {key : α → κ} {xs : List α}

/-- The class of every element that is kept as the first with its key. -/
theorem classes_eq_map_keepFirst (key : α → κ) (xs : List α) :
    classes key xs = (keepFirst key xs).map fun y => xs.filter fun x => key x == key y := by
  have hkeys : keepFirst id (xs.map key) = (keepFirst key xs).map key :=
    keepFirst_map fun _ _ _ _ => Iff.rfl
  rw [classes_eq, hkeys, List.map_map]
  rfl

/-- Only which keys are equal decides about the classes. -/
theorem classes_map {key' : β → κ'} {f : α → β}
    (hf : ∀ x ∈ xs, ∀ y ∈ xs, key' (f x) = key' (f y) ↔ key x = key y) :
    classes key' (xs.map f) = (classes key xs).map (List.map f) := by
  rw [classes_eq_map_keepFirst, classes_eq_map_keepFirst, keepFirst_map hf, List.map_map,
    List.map_map]
  apply List.map_congr_left
  intro y hy
  have hmem : y ∈ xs := (sublist_keepFirst key xs).subset hy
  simp only [Function.comp_apply, List.filter_map]
  apply congrArg (List.map f)
  apply List.filter_congr
  intro x hx
  rw [Bool.eq_iff_iff, Function.comp_apply, beq_iff_eq, beq_iff_eq]
  exact hf x hx y hmem

/-- Keys that are equal for the same elements give the same classes. -/
theorem classes_congr {key' : α → κ'}
    (hkeys : ∀ x ∈ xs, ∀ y ∈ xs, key' x = key' y ↔ key x = key y) :
    classes key' xs = classes key xs := by
  have hmap : classes key' (xs.map id) = (classes key xs).map (List.map id) := classes_map hkeys
  have hid : List.map (id : α → α) = id := funext List.map_id
  rwa [List.map_id, hid, List.map_id] at hmap

/-- A condition that does not tell elements of one class apart chooses among the classes. -/
theorem classes_filter {p : α → Bool} (hp : ∀ x ∈ xs, ∀ y ∈ xs, key x = key y → p x = p y) :
    classes key (xs.filter p) = (classes key xs).filter fun c => c.all p := by
  rw [classes_eq_map_keepFirst, classes_eq_map_keepFirst, keepFirst_filter hp, List.filter_map]
  have hchoice (y : α) (hy : y ∈ keepFirst key xs) :
      p y = (xs.filter fun x => key x == key y).all p := by
    have hmem : y ∈ xs := (sublist_keepFirst key xs).subset hy
    rw [Bool.eq_iff_iff, List.all_eq_true]
    constructor
    · intro hpy x hx
      rcases List.mem_filter.1 hx with ⟨hx, hkey⟩
      rw [hp x hx y hmem (eq_of_beq hkey)]
      exact hpy
    · intro hall
      exact hall y (List.mem_filter.2 ⟨hmem, beq_self_eq_true _⟩)
  rw [List.filter_congr hchoice]
  apply List.map_congr_left
  intro y hy
  rcases List.mem_filter.1 hy with ⟨hy, hall⟩
  rw [List.filter_filter]
  apply List.filter_congr
  intro x hx
  rw [Bool.and_eq_left_iff_imp]
  intro hkey
  exact List.all_eq_true.1 hall x (List.mem_filter.2 ⟨hx, hkey⟩)

/-- Every element belongs to one class. -/
theorem flatten_classes_perm (key : α → κ) (xs : List α) : (classes key xs).flatten.Perm xs := by
  rw [classes_eq, ← List.flatMap_def]
  exact flatMap_filter_perm (nodup_keepFirst_id _) fun x hx =>
    mem_keepFirst_id.2 (List.mem_map_of_mem hx)

/-- No class is empty. -/
theorem ne_nil_of_mem_classes {c : List α} (hc : c ∈ classes key xs) : c ≠ [] := by
  rw [classes_eq_map_keepFirst] at hc
  rcases List.mem_map.1 hc with ⟨x, hx, rfl⟩
  have hmem : x ∈ xs.filter fun y => key y == key x :=
    List.mem_filter.2 ⟨(sublist_keepFirst key xs).subset hx, beq_self_eq_true _⟩
  exact List.ne_nil_of_mem hmem

/-- Elements belong to one class exactly if they have one key: the class of both is that of the
first element with their key. -/
theorem exists_mem_classes_iff {x y : α} (hx : x ∈ xs) (hy : y ∈ xs) :
    (∃ c ∈ classes key xs, x ∈ c ∧ y ∈ c) ↔ key x = key y := by
  rw [classes_eq_map_keepFirst]
  constructor
  · rintro ⟨c, hc, hxc, hyc⟩
    rcases List.mem_map.1 hc with ⟨z, _, rfl⟩
    have hxz := eq_of_beq (List.mem_filter.1 hxc).2
    have hyz := eq_of_beq (List.mem_filter.1 hyc).2
    exact hxz.trans hyz.symm
  · intro hkey
    rcases List.mem_map.1 (mem_map_keepFirst.2 (List.mem_map_of_mem (f := key) hx)) with
      ⟨z, hz, hzx⟩
    refine ⟨_, List.mem_map_of_mem hz, List.mem_filter.2 ⟨hx, ?_⟩, List.mem_filter.2 ⟨hy, ?_⟩⟩
    · exact beq_iff_eq.2 hzx.symm
    · exact beq_iff_eq.2 (hkey.symm.trans hzx.symm)

/-- A class has the order of the list. -/
theorem sublist_of_mem_classes {c : List α} (hc : c ∈ classes key xs) : c.Sublist xs := by
  rw [classes_eq_map_keepFirst] at hc
  rcases List.mem_map.1 hc with ⟨x, _, rfl⟩
  exact List.filter_sublist

/-- Classes stand in the order of their first elements. -/
theorem pairwise_head?_classes {r : α → α → Prop} (hr : xs.Pairwise r) :
    (classes key xs).Pairwise fun c d => ∀ x ∈ c.head?, ∀ y ∈ d.head?, r x y := by
  have hhead (z : α) (hz : z ∈ keepFirst key xs) :
      (xs.filter fun x => key x == key z).head? = some z := by
    rw [List.head?_filter]
    exact find?_of_mem_keepFirst hz
  rw [classes_eq_map_keepFirst, List.pairwise_map]
  refine (hr.sublist (sublist_keepFirst key xs)).imp_of_mem fun hx hy hxy => ?_
  rw [hhead _ hx, hhead _ hy]
  rintro _ ⟨⟩ _ ⟨⟩
  exact hxy

end Classes

/-! ## Clusters -/

/-- Two batches name no common account. -/
def Batch.Apart (b c : Batch) : Prop := ∀ s ∈ b.named, s ∉ c.named

namespace Batch

variable {b c d : Batch}

/-- No transaction is skipped, since every main action belongs to a component of the graph. -/
theorem clusters_eq (b : Batch) :
    b.clusters = classes (fun tx => (LinkGraph.ofBatch b).components[tx.main.sender]?) b := by
  unfold clusters dividedBy
  dsimp only
  rw [List.filter_eq_self.2 fun _ htx => LinkGraph.contains_components_ofBatch htx]

/-- What distinguishes a cluster from the others: the component that all its accounts belong to. -/
theorem cluster_eq_filter {i : Nat} (hc : b.clusters[i]? = some c) :
    ∃ component, (keepFirst id (b.map fun tx =>
        (LinkGraph.ofBatch b).components[tx.main.sender]?))[i]? = some component ∧
      c = b.filter fun tx => (LinkGraph.ofBatch b).components[tx.main.sender]? == component := by
  rw [clusters_eq, classes_eq, List.getElem?_map] at hc
  rcases Option.map_eq_some_iff.1 hc with ⟨component, hi, rfl⟩
  exact ⟨component, hi, rfl⟩

/-- The clusters divide the batch: every transaction belongs to one of them. -/
theorem flatten_clusters_perm (b : Batch) : b.clusters.flatten.Perm b := by
  rw [clusters_eq]
  exact flatten_classes_perm _ b

/-- A cluster has the order of the batch. -/
theorem sublist_of_mem_clusters (hc : c ∈ b.clusters) : c.Sublist b := by
  rw [clusters_eq] at hc
  exact sublist_of_mem_classes hc

/-- A transaction of a cluster is one of the batch. -/
theorem mem_of_mem_clusters (hc : c ∈ b.clusters) {tx : Transaction} (htx : tx ∈ c) : tx ∈ b :=
  (sublist_of_mem_clusters hc).subset htx

/-- Every transaction of the batch belongs to a cluster. -/
theorem exists_mem_clusters {tx : Transaction} (htx : tx ∈ b) : ∃ c ∈ b.clusters, tx ∈ c :=
  List.mem_flatten.1 (b.flatten_clusters_perm.symm.subset htx)

/-- The main action of a transaction tells to which cluster it belongs. -/
theorem main_mem_mains_iff (hc : c ∈ b.clusters) {tx : Transaction} (htx : tx ∈ b) :
    tx.main ∈ c.mains ↔ tx ∈ c := by
  refine ⟨fun hmain => ?_, fun hmem => List.mem_map_of_mem hmem⟩
  rcases List.getElem?_of_mem hc with ⟨i, hi⟩
  rcases cluster_eq_filter hi with ⟨component, _, rfl⟩
  rcases List.mem_map.1 hmain with ⟨tx', htx', hmain⟩
  refine List.mem_filter.2 ⟨htx, ?_⟩
  rw [← hmain]
  exact (List.mem_filter.1 htx').2

/-- The sizes of the clusters add up to that of the batch. -/
theorem sum_length_clusters (b : Batch) : (b.clusters.map List.length).sum = b.length := by
  rw [← List.length_flatten, b.flatten_clusters_perm.length_eq]

/-- A batch is a cluster of its own if all its transactions name some account. -/
theorem mem_clusters_of_common (hb : b ≠ []) {s : Address} (hs : ∀ tx ∈ b, s ∈ tx.senders) :
    b ∈ b.clusters := by
  rcases List.exists_mem_of_ne_nil b hb with ⟨tx, htx⟩
  rcases exists_mem_clusters htx with ⟨c, hc, hmem⟩
  rcases List.getElem?_of_mem hc with ⟨i, hi⟩
  rcases cluster_eq_filter hi with ⟨component, _, rfl⟩
  have hall (tx' : Transaction) (htx' : tx' ∈ b) :
      (LinkGraph.ofBatch b).components[tx'.main.sender]? == component := by
    rw [LinkGraph.components_ofBatch_eq htx' (hs tx' htx'),
      ← LinkGraph.components_ofBatch_eq htx (hs tx htx)]
    exact (List.mem_filter.1 hmem).2
  rwa [List.filter_eq_self.2 hall] at hc

/-- No cluster is empty. -/
theorem ne_nil_of_mem_clusters (hc : c ∈ b.clusters) : c ≠ [] := by
  rw [clusters_eq] at hc
  exact ne_nil_of_mem_classes hc

/-- No account is named by two clusters. -/
theorem apart_clusters {i j : Nat} (hij : i ≠ j) (hc : b.clusters[i]? = some c)
    (hd : b.clusters[j]? = some d) : c.Apart d := by
  rcases cluster_eq_filter hc with ⟨x, hi, rfl⟩
  rcases cluster_eq_filter hd with ⟨y, hj, rfl⟩
  have hxy : x ≠ y := by
    rintro rfl
    have hlen := (List.getElem?_eq_some_iff.1 hi).1
    exact hij ((List.getElem?_inj hlen (nodup_keepFirst_id _)).1 (hi.trans hj.symm))
  intro s hs hs'
  rcases mem_named.1 hs with ⟨tx, htx, hsender⟩
  rcases mem_named.1 hs' with ⟨tx', htx', hsender'⟩
  rcases List.mem_filter.1 htx with ⟨hmem, hx⟩
  rcases List.mem_filter.1 htx' with ⟨hmem', hy⟩
  apply hxy
  calc x = (LinkGraph.ofBatch b).components[tx.main.sender]? := (eq_of_beq hx).symm
    _ = (LinkGraph.ofBatch b).components[s]? := LinkGraph.components_ofBatch_eq hmem hsender
    _ = (LinkGraph.ofBatch b).components[tx'.main.sender]? :=
        (LinkGraph.components_ofBatch_eq hmem' hsender').symm
    _ = y := eq_of_beq hy

end Batch

/-! ## Clusters of a part of a batch -/

namespace Batch

variable {b : Batch} {s t : Address}

/-- A condition that does not tell transactions with a common account apart does not tell
transactions with joined accounts apart. -/
theorem eq_of_joined {p : Transaction → Bool}
    (hp : ∀ tx ∈ b, ∀ tx' ∈ b, ∀ s ∈ tx.senders, s ∈ tx'.senders → p tx = p tx')
    (hst : b.Joined s t) {tx tx' : Transaction} (htx : tx ∈ b) (hs : s ∈ tx.senders)
    (htx' : tx' ∈ b) (ht : t ∈ tx'.senders) : p tx = p tx' := by
  induction hst generalizing tx' with
  | refl => exact hp tx htx tx' htx' s hs ht
  | @tail x y _ hstep ih =>
      rcases hstep with ⟨via, hvia, hx, hy⟩
      exact (ih hvia hx).trans (hp via hvia tx' htx' y hy ht)

/-- A condition that does not tell transactions with a common account apart does not tell
transactions of one cluster apart. -/
theorem eq_of_mem_clusters {c : Batch} {p : Transaction → Bool}
    (hp : ∀ tx ∈ b, ∀ tx' ∈ b, ∀ s ∈ tx.senders, s ∈ tx'.senders → p tx = p tx')
    (hc : c ∈ b.clusters) {tx tx' : Transaction} (htx : tx ∈ c) (htx' : tx' ∈ c) :
    p tx = p tx' := by
  have hmem := mem_of_mem_clusters hc htx
  have hmem' := mem_of_mem_clusters hc htx'
  rcases List.getElem?_of_mem hc with ⟨i, hi⟩
  rcases cluster_eq_filter hi with ⟨component, _, rfl⟩
  have hlabel := (eq_of_beq (List.mem_filter.1 htx).2).trans
    (eq_of_beq (List.mem_filter.1 htx').2).symm
  have hjoined := (LinkGraph.components_ofBatch_eq_iff (mains_mem_named hmem)).1 hlabel
  exact eq_of_joined hp hjoined hmem List.mem_cons_self hmem' List.mem_cons_self

/-- A condition that does not tell transactions with a common account apart takes or leaves the
chains that join accounts as a whole. -/
theorem joined_filter_iff {p : Transaction → Bool}
    (hp : ∀ tx ∈ b, ∀ tx' ∈ b, ∀ s ∈ tx.senders, s ∈ tx'.senders → p tx = p tx')
    (hs : s ∈ Batch.named (b.filter p)) : Joined (b.filter p) s t ↔ b.Joined s t := by
  constructor
  · intro hst
    have hstep (x y : Address) (hxy : NamesBoth (b.filter p) x y) : b.NamesBoth x y := by
      rcases hxy with ⟨tx, htx, hboth⟩
      exact ⟨tx, List.mem_of_mem_filter htx, hboth⟩
    exact Relation.ReflTransGen.mono hstep _ _ hst
  · intro hst
    rcases mem_named.1 hs with ⟨tx, htx, hsender⟩
    rcases List.mem_filter.1 htx with ⟨hmem, htaken⟩
    induction hst with
    | refl => exact .refl
    | @tail x y hpath hstep ih =>
        rcases hstep with ⟨via, hvia, hx, hy⟩
        have hpvia : p via := by
          rw [← eq_of_joined hp hpath hmem hsender hvia hx]
          exact htaken
        exact ih.tail ⟨via, List.mem_filter.2 ⟨hvia, hpvia⟩, hx, hy⟩

/-- The clusters of the transactions that a condition takes are the clusters that it takes, if it
does not tell transactions with a common account apart.  The graph of the part gives components
other numbers, but the same pairs of accounts have the same one. -/
theorem clusters_filter {p : Transaction → Bool}
    (hp : ∀ tx ∈ b, ∀ tx' ∈ b, ∀ s ∈ tx.senders, s ∈ tx'.senders → p tx = p tx') :
    clusters (b.filter p) = b.clusters.filter fun c => c.all p := by
  have hpart : clusters (b.filter p) =
      classes (fun tx => (LinkGraph.ofBatch b).components[tx.main.sender]?) (b.filter p) := by
    rw [clusters_eq]
    apply classes_congr
    intro tx htx tx' _
    rw [LinkGraph.components_ofBatch_eq_iff (mains_mem_named htx),
      LinkGraph.components_ofBatch_eq_iff (mains_mem_named (List.mem_of_mem_filter htx)),
      joined_filter_iff hp (mains_mem_named htx)]
  rw [hpart, clusters_eq, classes_filter]
  intro tx htx tx' htx' hlabel
  have hjoined := (LinkGraph.components_ofBatch_eq_iff (mains_mem_named htx)).1 hlabel
  exact eq_of_joined hp hjoined htx List.mem_cons_self htx' List.mem_cons_self

end Batch

end BatchOrder
