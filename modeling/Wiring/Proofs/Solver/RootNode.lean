import Wiring.Proofs.Export
import Wiring.Proofs.Solver.Stems
import Wiring.Proofs.Solver.Walk
import Wiring.Proofs.Typed

/-!
# The root node

A node is labelled as root where its component gives null for the type of the root. A solver makes
one such node and hangs all that it resolves below it. Bindings make no other, unless a rule or a
root desire asks for that null.
-/

namespace Wiring

open Settings Work

variable {s : Settings} {c : Catalog} {functions : List BindingFunction} {given : List ScopedRule}
  {types : List TypeSpec} {qualifiers : List QualifierSpec} {config : Config} {roots : List Desire}
  {v : Solver} {d : Desire} {context : Context} {r : Resolution} {a : Satisfaction} {x : Graph}

/-! ## Satisfactions without the root -/

mutual

def Satisfaction.Rootless : Satisfaction → Prop
  | .null t => t ≠ .root
  | .injected _ d => Desire.Rootless d
  | .construct _ | .existing _ _ | .viaClass _ _ | .viaProvider _ _ => True

def Desire.Rootless : Desire → Prop
  | ⟨_, _, a⟩ => rootlessOptional a

def rootlessOptional : Option Satisfaction → Prop
  | none => True
  | some a => Satisfaction.Rootless a

end

def BindTarget.Rootless : BindTarget → Prop
  | .type _ => True
  | .satisfaction a => a.Rootless

theorem Satisfaction.Rootless.isRoot (h : a.Rootless) (policy : CachePolicy) :
    Component.isRoot ⟨a, policy⟩ = false := by
  unfold Component.isRoot
  split
  · rename_i heq
    cases heq
    rw [Rootless] at h
    exact absurd rfl h
  · rfl

theorem Desire.Rootless.satisfaction (h : d.Rootless) (ha : d.satisfaction? = some a) :
    a.Rootless := by
  obtain ⟨_, _, _⟩ := d
  cases ha
  rw [Rootless, rootlessOptional] at h
  exact h

theorem Catalog.rootless_desire (c : Catalog) (p : InjectionPoint) (t : TypeKey) :
    Desire.Rootless ⟨p, t, c.classSatisfaction? t⟩ := by
  rw [Desire.Rootless]
  unfold classSatisfaction?
  split <;> trivial

theorem rootless_targetDesire {p : InjectionPoint} {t : BindTarget} (ht : t.Rootless) :
    (targetDesire c p t).Rootless := by
  cases t with
  | type t => exact c.rootless_desire p t
  | satisfaction a =>
    unfold targetDesire
    rw [Desire.Rootless]
    exact ht

theorem rootless_narrowings
    (htargets : ∀ f ∈ functions, ∀ t, some t ∈ f.targets → t.Rootless) (hd : d.Rootless) :
    ∀ x ∈ narrowings c functions d, x.Rootless := by
  refine forall_narrowings hd (fun f hf t ht => rootless_targetDesire (htargets f hf t ht))
    (fun t => c.rootless_desire _ t) (fun q => ?_) fun t k x hx => ?_
  · unfold Satisfaction.ofProviderOf
    rw [Desire.Rootless, rootlessOptional, Satisfaction.Rootless]
    exact c.rootless_desire _ q
  · rcases List.mem_append.mp hx with hx | hx <;>
    · obtain ⟨_, -, rfl⟩ := Option.map_eq_some_iff.mp (Option.mem_toList.mp hx)
      rw [Desire.Rootless]
      trivial

theorem Satisfaction.Rootless.dependencies (hc : c.Frozen) (ha : a.Rootless)
    (hd : d ∈ a.dependencies c) : d.Rootless := by
  cases a with
  | construct | viaClass =>
    rw [hc _ d hd]
    exact c.rootless_desire _ _
  | injected _ target =>
    rw [Rootless] at ha
    exact List.mem_singleton.mp hd ▸ ha
  | existing | viaProvider | null => cases hd

theorem rootless_of_binds (h : ∀ b ∈ given, b.rule.target.Rootless) (hd : d.Rootless)
    (hbinds : (Settings.ofConfig c given config).Binds d context r) :
    r.satisfaction.Rootless := by
  have hs : Unscripted (.ofConfig c given config) := BindingFunction.isScripted_standard c given
  obtain ⟨hdesires, hcurrent⟩ := hbinds.forall_desires hs
    (fun _ hd => rootless_narrowings (forall_targets_standard h) hd) hd
  exact (hdesires _ r.chain.current_mem).satisfaction hcurrent

/-! ## The one root node -/

def RootAlone (b : BackEdges) (g : Graph) : Prop :=
  ∀ x, Linked b g x → x.label.isRoot = true → (x == g) = true

namespace Solver

theorem Calls.headed {w' : Workspace} {p : Pass} {tag : Nat} (hsound : v.Sound)
    (h : v.Calls d (v.workspace tag) (.ok p) w') : Headed v.graph.label p := by
  cases h with
  | @drained edge node root _ w1 w2 w3 _ htree hmerge hbuild hdrains =>
    obtain ⟨_, hnode, -, hraw, hpool, hqueue⟩ := raw_of_merge (htree.queues.pool hsound.pool)
      ((htree.tree_grown rfl).raw edge List.mem_cons_self) hmerge
    cases hnode
    obtain ⟨hroot, rfl⟩ := runs_build.1 hbuild
    cases hroot
    have hbare : ∀ f ∈ w2.queue, Bare f.node.label f.node :=
      fun f hf => (deeper_of_resolves rfl htree f (hqueue ▸ hf)).bare
    have hnode := (hraw node (.self _)).wellBuilt
    refine hdrains.headed hpool hbare ⟨withChild_wellBuilt hsound.wellBuilt _ hnode _, ?_⟩ rfl
    show ((withChild v.graph edge.1 node w2.nextTag).label == v.graph.label) = true
    rw [withChild_label]
    exact BEq.rfl

theorem Reachable.isRoot (h : Reachable s v) : v.graph.label.isRoot = true := by
  induction h with
  | fresh _ _ => rfl
  | @resolve v d tag h ih =>
    obtain ⟨hsound, -⟩ := h.sound
    obtain ⟨o, w', hcalls, -, hsolver⟩ := v.exists_calls d tag
    rw [hsolver]
    cases o with
    | error e => exact ih
    | ok p => exact (Component.isRoot_of_beq (hcalls.headed hsound).label).trans ih

theorem After.rootAlone
    (h : After (.ofConfig (.freeze types qualifiers) given config) roots v)
    (hgiven : ∀ b ∈ given, b.rule.target.Rootless) (hroots : ∀ d ∈ roots, d.Rootless) :
    RootAlone v.backEdges v.graph := by
  have hinherits : (Settings.ofConfig (.freeze types qualifiers) given config).Inherits
      Desire.Rootless fun _ => True :=
    ⟨trivial, fun _ _ _ _ _ => trivial, fun _ _ _ hd hbinds _ hneeds =>
      (rootless_of_binds hgiven hd hbinds).dependencies (Catalog.frozen_freeze types qualifiers)
        hneeds⟩
  have hstems := h.stems hinherits hroots
  -- All but the root node stem from a desire that was bound.
  have hedge : ∀ y e, Linked v.backEdges v.graph y → e ∈ v.edgesFrom y →
      e.2.label.isRoot = false := by
    intro y e hy he
    obtain ⟨d, k, r, hd, htakes, -, hl⟩ := (hstems.edgesFrom hy he).edge
    rw [h.reachable.sound.2] at htakes
    rw [← Component.isRoot_of_beq hl]
    exact (rootless_of_binds hgiven hd htakes.binds).isRoot _
  intro x hx hroot
  cases hx with
  | root => exact BEq.rfl
  | edge hy he =>
    rw [hedge _ _ hy (List.mem_append_left _ he)] at hroot
    cases hroot
  | @back y e hy he =>
    have hback : (e.label, e.tail) ∈ v.edgesFrom y :=
      List.mem_append_right _ (List.mem_map_of_mem he)
    rw [hedge _ _ hy hback] at hroot
    cases hroot

end Solver

end Wiring
