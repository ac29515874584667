import Mathlib.Data.List.Basic

/-!
# Ordered trees

Trees with labels, such as the elements of a document or the spans of a text, in which the children of a
node are in an order.

A tree is known by its shape and its labels in order (`eq_of_shape_eq`), or by which labels come below each
of its nodes (`eq_of_forall_labels_eq`). In a tree that is `Layered` by two relations, the labels below a
node can be told from all others by comparing them with the node's own (`labels_eq_filter`).
-/

namespace XmlLocate

/-- A tree with a label at each node, whose children are in an order. -/
inductive OrderedTree (α : Type) where
  | node (label : α) (children : List (OrderedTree α))

namespace OrderedTree

variable {α β : Type}

def label : OrderedTree α → α
  | node a _ => a

mutual

/-- The labels of a tree, each before those below it. -/
def labels : OrderedTree α → List α
  | node a ts => a :: labelsAll ts

def labelsAll : List (OrderedTree α) → List α
  | [] => []
  | t :: ts => t.labels ++ labelsAll ts

end

mutual

/-- A tree and all trees in it. -/
def subtrees : OrderedTree α → List (OrderedTree α)
  | node a ts => node a ts :: subtreesAll ts

def subtreesAll : List (OrderedTree α) → List (OrderedTree α)
  | [] => []
  | t :: ts => t.subtrees ++ subtreesAll ts

end

mutual

/-- Changes the labels of a tree. -/
def map (f : α → β) : OrderedTree α → OrderedTree β
  | node a ts => node (f a) (mapAll f ts)

def mapAll (f : α → β) : List (OrderedTree α) → List (OrderedTree β)
  | [] => []
  | t :: ts => t.map f :: mapAll f ts

end

/-- What is left of a tree without its labels. -/
def shape (t : OrderedTree α) : OrderedTree Unit := t.map fun _ => ()

/-! ## Labels -/

theorem labels_eq_cons (t : OrderedTree α) : ∃ ls, t.labels = t.label :: ls := by
  cases t with
  | node a ts => exact ⟨labelsAll ts, by rw [labels]; rfl⟩

mutual

theorem labels_map (f : α → β) : ∀ t : OrderedTree α, (t.map f).labels = t.labels.map f
  | node a ts => by rw [map, labels, labels, labelsAll_mapAll f ts, List.map_cons]

theorem labelsAll_mapAll (f : α → β) :
    ∀ ts : List (OrderedTree α), labelsAll (mapAll f ts) = (labelsAll ts).map f
  | [] => by rw [mapAll, labelsAll, labelsAll, List.map_nil]
  | t :: ts => by
    rw [mapAll, labelsAll, labelsAll, labels_map f t, labelsAll_mapAll f ts, List.map_append]

end

mutual

theorem label_mem_labels : ∀ {t u : OrderedTree α}, u ∈ t.subtrees → u.label ∈ t.labels
  | node a ts, u, h => by
    rw [subtrees, List.mem_cons] at h
    rw [labels, List.mem_cons]
    rcases h with rfl | h
    · exact .inl rfl
    · exact .inr (label_mem_labelsAll h)

theorem label_mem_labelsAll :
    ∀ {ts : List (OrderedTree α)} {u : OrderedTree α}, u ∈ subtreesAll ts → u.label ∈ labelsAll ts
  | t :: ts, u, h => by
    rw [subtreesAll, List.mem_append] at h
    rw [labelsAll, List.mem_append]
    exact h.imp label_mem_labels label_mem_labelsAll

end

theorem labelsAll_append (ts us : List (OrderedTree α)) :
    labelsAll (ts ++ us) = labelsAll ts ++ labelsAll us := by
  induction ts with
  | nil => rw [labelsAll, List.nil_append, List.nil_append]
  | cons t ts ih => rw [List.cons_append, labelsAll, labelsAll, ih, List.append_assoc]

/-! ## Equal trees -/

mutual

theorem shape_map (f : α → β) : ∀ t : OrderedTree α, (t.map f).shape = t.shape
  | node a ts => by rw [shape, shape, map, map, map, mapAll_mapAll f ts]

theorem mapAll_mapAll (f : α → β) : ∀ ts : List (OrderedTree α),
    mapAll (fun _ => ()) (mapAll f ts) = mapAll (fun _ => ()) ts
  | [] => by rw [mapAll, mapAll, mapAll]
  | t :: ts => by
    rw [mapAll, mapAll, mapAll, mapAll_mapAll f ts]
    exact congrArg (· :: _) (shape_map f t)

end

theorem length_labels_shape (t : OrderedTree α) : t.shape.labels.length = t.labels.length := by
  rw [shape, labels_map, List.length_map]

mutual

/-- Trees of one shape are the same if they have the same labels in order. -/
theorem eq_of_shape_eq :
    ∀ {t u : OrderedTree α}, t.shape = u.shape → t.labels = u.labels → t = u
  | node a ts, node b us, hshape, hlabels => by
    rw [shape, shape, map, map, node.injEq] at hshape
    rw [labels, labels, List.cons.injEq] at hlabels
    rw [hlabels.1, eq_of_mapAll_eq hshape.2 hlabels.2]

theorem eq_of_mapAll_eq : ∀ {ts us : List (OrderedTree α)},
    mapAll (fun _ => ()) ts = mapAll (fun _ => ()) us → labelsAll ts = labelsAll us → ts = us
  | [], [], _, _ => rfl
  | [], _ :: _, hshape, _ => by simp [mapAll] at hshape
  | _ :: _, [], hshape, _ => by simp [mapAll] at hshape
  | t :: ts, u :: us, hshape, hlabels => by
    rw [mapAll, mapAll, List.cons.injEq] at hshape
    rw [labelsAll, labelsAll] at hlabels
    have hlen : t.labels.length = u.labels.length := by
      rw [← t.length_labels_shape, ← u.length_labels_shape]
      exact congrArg (·.labels.length) hshape.1
    obtain ⟨hfirst, hrest⟩ := List.append_inj hlabels hlen
    rw [eq_of_shape_eq hshape.1 hfirst, eq_of_mapAll_eq hshape.2 hrest]

end

section

variable {f : α → List α}

mutual

/-- Trees are the same if they have the same root and what is below a label is the same in both. -/
theorem eq_of_forall_labels_eq : ∀ {t u : OrderedTree α}, (∀ v ∈ t.subtrees, v.labels = f v.label) →
    (∀ v ∈ u.subtrees, v.labels = f v.label) → t.label = u.label → t = u
  | node a ts, node b us, ht, hu, hlabel => by
    obtain rfl : a = b := hlabel
    have hlabels : labelsAll ts = labelsAll us := by
      have hts := ht (node a ts) (by rw [subtrees]; exact List.mem_cons_self ..)
      have hus := hu (node a us) (by rw [subtrees]; exact List.mem_cons_self ..)
      rw [labels, label] at hts hus
      exact (List.cons.inj (hts.trans hus.symm)).2
    rw [subtrees] at ht hu
    rw [eq_of_forall_labelsAll_eq (fun v hv => ht v (List.mem_cons_of_mem _ hv))
      (fun v hv => hu v (List.mem_cons_of_mem _ hv)) hlabels]

theorem eq_of_forall_labelsAll_eq : ∀ {ts us : List (OrderedTree α)},
    (∀ v ∈ subtreesAll ts, v.labels = f v.label) → (∀ v ∈ subtreesAll us, v.labels = f v.label) →
      labelsAll ts = labelsAll us → ts = us
  | [], [], _, _, _ => rfl
  | [], u :: us, _, _, h => by
    obtain ⟨ls, hls⟩ := u.labels_eq_cons
    simp [labelsAll, hls] at h
  | t :: ts, [], _, _, h => by
    obtain ⟨ls, hls⟩ := t.labels_eq_cons
    simp [labelsAll, hls] at h
  | t :: ts, u :: us, ht, hu, h => by
    rw [subtreesAll] at ht hu
    rw [labelsAll, labelsAll] at h
    have hlabel : t.label = u.label := by
      obtain ⟨ls, hls⟩ := t.labels_eq_cons
      obtain ⟨ls', hls'⟩ := u.labels_eq_cons
      rw [hls, hls'] at h
      exact (List.cons.inj h).1
    obtain rfl := eq_of_forall_labels_eq (fun v hv => ht v (List.mem_append_left _ hv))
      (fun v hv => hu v (List.mem_append_left _ hv)) hlabel
    rw [eq_of_forall_labelsAll_eq (fun v hv => ht v (List.mem_append_right _ hv))
      (fun v hv => hu v (List.mem_append_right _ hv)) (List.append_cancel_left h)]

end

end

/-! ## Layers -/

section

variable (R S : α → α → Prop)

mutual

/-- `R` holds between a label and those below it, and `S` between the labels of a tree and those of the
trees behind it. -/
def Layered : OrderedTree α → Prop
  | node a ts => (∀ b ∈ labelsAll ts, R a b) ∧ LayeredAll ts

def LayeredAll : List (OrderedTree α) → Prop
  | [] => True
  | t :: ts => t.Layered ∧ (∀ a ∈ t.labels, ∀ b ∈ labelsAll ts, S a b) ∧ LayeredAll ts

end

end

section

variable {R S : β → β → Prop} (f : α → β)

mutual

theorem layered_map : ∀ t : OrderedTree α,
    (t.map f).Layered R S ↔ t.Layered (fun a b => R (f a) (f b)) fun a b => S (f a) (f b)
  | node a ts => by
    rw [map, Layered, Layered, layeredAll_mapAll ts, labelsAll_mapAll, List.forall_mem_map]

theorem layeredAll_mapAll : ∀ ts : List (OrderedTree α),
    LayeredAll R S (mapAll f ts) ↔ LayeredAll (fun a b => R (f a) (f b)) (fun a b => S (f a) (f b)) ts
  | [] => by rw [mapAll, LayeredAll, LayeredAll]
  | t :: ts => by
    rw [mapAll, LayeredAll, LayeredAll, layered_map t, layeredAll_mapAll ts, labels_map,
      labelsAll_mapAll, List.forall_mem_map]
    simp only [List.forall_mem_map]

end

end

section

variable {R S R' S' : α → α → Prop}
  (h : ∀ a b, (R a b → R' a b) ∧ (S a b → S' a b))

include h

mutual

theorem Layered.imp : ∀ {t : OrderedTree α}, t.Layered R S → t.Layered R' S'
  | node a ts, ht => by
    rw [Layered] at ht ⊢
    exact ⟨fun b hb => (h a b).1 (ht.1 b hb), LayeredAll.imp ht.2⟩

theorem LayeredAll.imp : ∀ {ts : List (OrderedTree α)}, LayeredAll R S ts → LayeredAll R' S' ts
  | [], _ => by
    rw [LayeredAll]
    trivial
  | t :: ts, hts => by
    rw [LayeredAll] at hts ⊢
    exact ⟨hts.1.imp, fun a ha b hb => (h a b).2 (hts.2.1 a ha b hb), hts.2.2.imp⟩

end

end

theorem LayeredAll.of_append {R S : α → α → Prop} {ts us : List (OrderedTree α)}
    (h : LayeredAll R S (ts ++ us)) : LayeredAll R S ts ∧ LayeredAll R S us ∧
      ∀ a ∈ labelsAll ts, ∀ b ∈ labelsAll us, S a b := by
  induction ts with
  | nil =>
    rw [LayeredAll, labelsAll]
    exact ⟨trivial, h, by simp⟩
  | cons t ts ih =>
    rw [List.cons_append, LayeredAll, labelsAll_append] at h
    obtain ⟨ht, hbeside, h⟩ := h
    obtain ⟨hts, hus, hacross⟩ := ih h
    rw [LayeredAll, labelsAll]
    refine ⟨⟨ht, fun a ha b hb => hbeside a ha b (List.mem_append_left _ hb), hts⟩, hus, ?_⟩
    intro a ha b hb
    rcases List.mem_append.mp ha with ha | ha
    · exact hbeside a ha b (List.mem_append_right _ hb)
    · exact hacross a ha b hb

/-- Along `R` the test `p` holds, but not back, and along `S` it holds neither way. -/
structure Separates (p : α → α → Bool) (R S : α → α → Prop) : Prop where
  self : ∀ a, p a a
  below : ∀ a b, R a b → p a b ∧ ¬ p b a
  beside : ∀ a b, S a b → ¬ p a b ∧ ¬ p b a

section

variable {R S : α → α → Prop} {p : α → α → Bool} (hp : Separates p R S)

include hp

mutual

/-- The labels below a node are those to which the test holds from its own. -/
theorem labels_eq_filter : ∀ {t : OrderedTree α}, t.Layered R S → ∀ {u : OrderedTree α},
    u ∈ t.subtrees → u.labels = t.labels.filter (p u.label)
  | node a ts, h, u, hu => by
    rw [Layered] at h
    rw [subtrees, List.mem_cons] at hu
    rcases hu with rfl | hu
    · refine (List.filter_eq_self.mpr ?_).symm
      rw [labels]
      intro b hb
      rcases List.mem_cons.mp hb with rfl | hb
      · exact hp.self _
      · exact (hp.below _ _ (h.1 b hb)).1
    · rw [labels, List.filter_cons_of_neg (hp.below _ _ (h.1 _ (label_mem_labelsAll hu))).2]
      exact labels_eq_filter_labelsAll h.2 hu

theorem labels_eq_filter_labelsAll : ∀ {ts : List (OrderedTree α)}, LayeredAll R S ts →
    ∀ {u : OrderedTree α}, u ∈ subtreesAll ts → u.labels = (labelsAll ts).filter (p u.label)
  | t :: ts, h, u, hu => by
    rw [LayeredAll] at h
    obtain ⟨ht, hapart, hts⟩ := h
    rw [subtreesAll, List.mem_append] at hu
    rw [labelsAll, List.filter_append]
    rcases hu with hu | hu
    · have hmem := label_mem_labels hu
      rw [← labels_eq_filter ht hu, List.filter_eq_nil_iff.mpr, List.append_nil]
      intro b hb
      exact (hp.beside _ _ (hapart _ hmem b hb)).1
    · have hmem := label_mem_labelsAll hu
      rw [← labels_eq_filter_labelsAll hts hu, List.filter_eq_nil_iff.mpr, List.nil_append]
      intro b hb
      exact (hp.beside _ _ (hapart b hb _ hmem)).2

end

end

end OrderedTree

end XmlLocate
