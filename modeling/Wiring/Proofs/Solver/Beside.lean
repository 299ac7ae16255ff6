import Wiring.Proofs.BackEdges.Same
import Wiring.Proofs.Solver.Expansion
import Wiring.Proofs.Solver.Puts

/-!
# Two passes side by side

Of two passes one may have edges below its root node and back-edges that the other does not have.
If those have nothing left to be expanded, and their back-edges are about other components than the
pass, then a step does the same in both: what only one has stays as it is. Where neither has more
than the other, the passes cannot be told apart.
-/

namespace Wiring

open Work Settings Catalog BackEdges

structure Components where
  has : Component → Prop
  congr : ∀ l l', (l == l') = true → has l → has l'

def Components.Spans (K : Components) (g : Graph) : Prop := ∀ y, g.Under y → K.has y.label

/-- Further edges of the root node and further back-edges: all nodes have what they need, and no
back-edge is about a component in `K`. -/
structure Aside (c : Catalog) (K : Components) (edges : List Resolved)
    (entries : List (Graph × List GraphEdge)) : Prop where
  wellBuilt : ∀ g ∈ edges, g.2.WellBuilt
  covered : ∀ g ∈ edges, ∀ y, g.2.Has y → c.Covered ⟨entries⟩ y
  fits : ∀ entry ∈ entries, ∀ e ∈ entry.2, Dag.SameNode e.head entry.1
  head : ∀ entry ∈ entries, ¬ K.has entry.1.label
  tail : ∀ entry ∈ entries, ∀ e ∈ entry.2, ¬ K.has e.tail.label

structure SameFound (e f : Graph × List Resolved) : Prop where
  node : Dag.SameNode e.1 f.1
  children : List.Forall₂ Dag.SameEdge e.2 f.2

structure Beside (edges : List Resolved) (entries : List (Graph × List GraphEdge)) (p q : Pass) :
    Prop where
  root : Dag.Includes edges p.root q.root
  back : BackEdges.Joined entries p.backEdges q.backEdges
  expanded : List.Forall₂ SameFound p.expanded q.expanded

variable {c : Catalog} {s : Settings} {K : Components} {edges : List Resolved}
  {entries : List (Graph × List GraphEdge)} {p q : Pass} {ps qs : List Deferral}
  {current current' new new' child child' parent parent' x y : Graph} {dep dep' : Dependency}
  {busy busy' : Graph → Prop} {r r' : Graph × Dag.Memo Component Dependency}

theorem Components.iff (K : Components) {l l' : Component} (h : (l == l') = true) :
    K.has l ↔ K.has l' :=
  ⟨K.congr l l' h, K.congr l' l (BEq.symm h)⟩

theorem Aside.noHead (ha : Aside c K edges entries) (hx : K.has x.label) : NoHead entries x := by
  intro entry hentry
  rw [Bool.eq_false_iff]
  intro hbeq
  exact ha.head entry hentry ((K.iff (Dag.label_beq hbeq)).2 hx)

theorem Aside.complete (ha : Aside c K edges entries) {g : Resolved} (hg : g ∈ edges)
    (hy : g.2.Has y) (hK : K.has y.label) : c.Complete y := by
  intro d hd
  rcases ha.covered g hg y hy d hd with hedge | ⟨e, he, _⟩
  · exact hedge
  · obtain ⟨entry, hentry, hbeq, _⟩ := mem_edgesOf he
    have hno := ha.noHead hK entry hentry
    simp [hbeq] at hno

/-! ## Where a node is -/

theorem Dag.Includes.under_cases (h : Dag.Includes edges p.root q.root) (hxy : Dag.SameNode x y)
    (hy : q.root.Under y) :
    p.root.Under x ∨ ∃ g ∈ edges, ∃ z, g.2.Has z ∧ Dag.SameNode y z := by
  obtain ⟨f, hf, hfy⟩ := hy
  obtain ⟨e, he, hef⟩ := h.origin f hf
  rcases List.mem_append.1 he with he | he
  · exact .inl ⟨e, he, hef.tail.reaches_congr hxy ▸ hfy⟩
  · have hey : e.2.reaches y = true := by
      rwa [hef.tail.reaches_congr (.refl hxy.right)]
    obtain ⟨z, hz, hyz⟩ := Dag.reaches_iff.1 hey
    exact .inr ⟨e, he, z, hz, hyz, hxy.right, hz.wellBuilt hef.left⟩

theorem StoredEdge.under {e : GraphEdge} {k : Graph} (h : StoredEdge c p.root k e)
    (hp : p.Sound c busy ps) (hreach : p.root.reaches e.tail = true) : p.root.Under e.tail := by
  rcases h.tail with hunder | hraw
  · exact hunder
  · exact Dag.under_of_reaches hreach (hp.raw_not_root (hraw e.tail (.self _)))

/-! ## One replacement -/

/-- In two passes side by side equal nodes are replaced by equal nodes. Where a node has edges for
all its dependencies, the new one is equal to it. -/
structure BothReplaced (c : Catalog) (K : Components) (edges : List Resolved)
    (entries : List (Graph × List GraphEdge)) (p q : Pass) (current current' new new' : Graph)
    (r r' : Graph × Dag.Memo Component Dependency) : Prop where
  beside : Beside edges entries p q
  aside : Aside c K edges entries
  among : K.Spans p.root
  left : Dag.NodeReplaced current new p.root .empty r
  right : Dag.NodeReplaced current' new' q.root .empty r'
  before : Dag.SameNode current current'
  after : Dag.SameNode new new'
  under : p.root.Under current
  same : c.Complete current → (current == new) = true

namespace BothReplaced

variable (h : BothReplaced c K edges entries p q current current' new new' r r')
include h

theorem same_left (hcomplete : c.Complete current) : Dag.SameNode current new :=
  ⟨h.same hcomplete, h.before.left, h.after.left⟩

theorem same_right (hcomplete : c.Complete current) : Dag.SameNode current' new' :=
  h.before.symm.trans ((h.same_left hcomplete).trans h.after)

theorem not_reaches (hcomplete : ¬ c.Complete current) {g : Resolved} (hg : g ∈ edges)
    (hy : g.2.Has y) : y.reaches current' = false := by
  rw [Bool.eq_false_iff]
  intro hreach
  obtain ⟨z, hz, hcz⟩ := Dag.reaches_iff.1 hreach
  have hyz := hy.trans hz
  have hzw := hyz.wellBuilt (h.aside.wellBuilt g hg)
  have hsame := h.before.trans ⟨hcz, h.before.right, hzw⟩
  have hlabel := K.congr _ _ hsame.label (h.among current h.under)
  exact hcomplete ((h.aside.complete hg hyz hlabel).of_beq hzw hsame.symm.beq)

/-- What is aside stays as it is: where a complete node is replaced nothing changes, and what is
aside leads to no other node that is replaced. -/
theorem aside_kept {g : Resolved} (hg : g ∈ edges) (hy : g.2.Has y) :
    Dag.SameNode y (r'.2.imageOf y) := by
  have hyw := hy.wellBuilt (h.aside.wellBuilt g hg)
  by_cases hcomplete : c.Complete current
  · exact h.right.imageOf_identity (h.same_right hcomplete) hyw
  · have hkept := h.right.imageOf_kept (h.not_reaches hcomplete hg hy)
    exact Dag.SameNode.symm ⟨hkept, h.right.imageOf_wellBuilt hyw, hyw⟩

theorem image (hxy : Dag.SameNode x y) (hx : p.root.reaches x = true → p.root.Under x)
    (hy : q.root.reaches y = true → q.root.Under y) :
    Dag.SameNode (r.2.imageOf x) (r'.2.imageOf y) := by
  by_cases hcomplete : c.Complete current
  · have hleft := h.left.imageOf_identity (h.same_left hcomplete) hxy.left
    have hright := h.right.imageOf_identity (h.same_right hcomplete) hxy.right
    exact hleft.symm.trans (hxy.trans hright)
  · have hroot := h.beside.root
    refine h.left.imageOf_same h.before h.after h.right hroot.left hroot.right hxy fun hlead => ?_
    rw [Bool.eq_iff_iff]
    refine ⟨fun hreach => (hroot.under hxy (hx hreach)).reaches, fun hreach => ?_⟩
    rcases hroot.under_cases hxy (hy hreach) with hunder | ⟨g, hg, z, hz, hyz⟩
    · exact hunder.reaches
    · have hstatic := h.not_reaches hcomplete hg hz
      rw [← (hxy.trans hyz).reaches_congr h.before, hlead] at hstatic
      cases hstatic

theorem end_kept (hxy : Dag.SameNode x y) (hx : ¬ K.has x.label)
    (hy : q.root.reaches y = true → q.root.Under y) : Dag.SameNode x (r'.2.imageOf y) := by
  by_cases hreach : q.root.reaches y = true
  · rcases h.beside.root.under_cases hxy (hy hreach) with hin | ⟨g, hg, z, hz, hyz⟩
    · exact absurd (h.among x hin) hx
    · have himages : Dag.SameNode (r'.2.imageOf y) (r'.2.imageOf z) :=
        ⟨Dag.Memo.imageOf_congr hyz.left hyz.beq, h.right.imageOf_wellBuilt hyz.left,
          h.right.imageOf_wellBuilt hyz.right⟩
      exact hxy.trans (hyz.trans ((h.aside_kept hg hz).trans himages.symm))
  · rw [h.right.imageOf_absent (by simpa using hreach)]
    exact hxy

theorem entries_kept (hq : q.Sound c busy' qs) : Kept r'.2 entries := by
  have hstored : ∀ entry ∈ entries, ∃ entry' ∈ q.backEdges.entries, SameEntry entry entry' :=
    fun entry hentry => h.beside.back.exists_right (List.mem_append_left _ hentry)
  refine ⟨⟨fun entry hentry k hk => ?_, fun entry hentry e he t ht => ?_⟩, h.aside.fits⟩
  · obtain ⟨entry', hentry', hsame⟩ := hstored entry hentry
    obtain ⟨-, hhead, -⟩ := hq.head entry' hentry'
    exact h.end_kept hk (h.aside.head entry hentry)
      fun _ => hhead.congr (hsame.head.symm.trans hk)
  · obtain ⟨entry', hentry', hsame⟩ := hstored entry hentry
    obtain ⟨e', he', hee⟩ := hsame.edges.exists_left he
    have htail := hee.tail.symm.trans ht
    refine h.end_kept ht (h.aside.tail entry hentry e he) fun hreach => ?_
    exact ((hq.edge entry' hentry' e' he').under hq
      (Dag.reaches_of_beq hreach htail.beq)).congr htail

theorem ends_same (hp : p.Sound c busy ps) (hq : q.Sound c busy' qs) :
    ImagesSame r.2 r'.2 p.backEdges.entries := by
  have hstored : ∀ entry ∈ p.backEdges.entries,
      ∃ entry' ∈ q.backEdges.entries, SameEntry entry entry' :=
    fun entry hentry => h.beside.back.exists_right (List.mem_append_right _ hentry)
  refine ⟨fun entry hentry k hk => ?_, fun entry hentry e he t ht => ?_⟩
  · obtain ⟨entry', hentry', hsame⟩ := hstored entry hentry
    obtain ⟨-, hhead, -⟩ := hp.head entry hentry
    obtain ⟨-, hhead', -⟩ := hq.head entry' hentry'
    exact h.image hk (fun _ => hhead) fun _ => hhead'.congr (hsame.head.symm.trans hk)
  · obtain ⟨entry', hentry', hsame⟩ := hstored entry hentry
    obtain ⟨e', he', hee⟩ := hsame.edges.exists_left he
    have htail := hee.tail.symm.trans ht
    refine h.image ht (fun hreach => (hp.edge entry hentry e he).under hp hreach) fun hreach => ?_
    exact ((hq.edge entry' hentry' e' he').under hq
      (Dag.reaches_of_beq hreach htail.beq)).congr htail

theorem root : Dag.Includes edges r.1 r'.1 :=
  h.beside.root.image h.before h.after h.left h.right h.under fun _ hg => h.aside_kept hg (.self _)

theorem back (hp : p.Sound c busy ps) (hq : q.Sound c busy' qs)
    (hl : new.label = current.label) (order order' : Order) :
    BackEdges.Joined entries (p.backEdges.rekey order r.2) (q.backEdges.rekey order' r'.2) := by
  refine h.beside.back.rekey (h.entries_kept hq) (h.ends_same hp hq) fun entry hentry => ?_
  obtain ⟨-, hhead, -⟩ := hp.head entry hentry
  exact h.aside.noHead (K.congr _ _ (label_imageOf h.left hl entry.1) (h.among entry.1 hhead))

end BothReplaced

end Wiring
