import Bx.Proofs.Flow.Editing
import Bx.Proofs.Flow.Liveness

namespace Bx.Flow

open List Tac

variable {x : String} {i : Line}

namespace Graph

def Reaches (g : Graph) (x : String) (i : Line) : Prop :=
  ∃ ls, (i :: ls).IsChain g.Next ∧ (∃ j ∈ (i :: ls).getLast?, .plain x ∈ j.instr.uses) ∧ ∀ l ∈ (i :: ls).dropLast, x ∉ l.instr.defs

theorem Reaches.here {g : Graph} (h : .plain x ∈ i.instr.uses) : g.Reaches x i :=
  ⟨[], .singleton i, ⟨i, rfl, h⟩, by simp⟩

theorem Reaches.back {g : Graph} {j : Line} (h : g.Reaches x j) (hn : g.Next i j) (hd : x ∉ i.instr.defs) : g.Reaches x i := by
  obtain ⟨ls, hchain, huse, hdefs⟩ := h
  refine ⟨j :: ls, hchain.cons_cons hn, by rwa [List.getLast?_cons_cons], ?_⟩
  rw [dropLast_cons_cons, forall_mem_cons]
  exact ⟨hd, hdefs⟩

section Keyed

variable {g g' : Graph}

theorem nodup_keys_put {α : Type} (k : Label) (v : α) {t : List (Label × α)} (h : (t.map Prod.fst).Nodup) :
    ((Datum.put k v t).map Prod.fst).Nodup := by
  rw [keys_put]
  split
  · exact h
  · next hk =>
      rw [lookup_isSome] at hk
      exact nodup_append.2 ⟨h, nodup_singleton k, fun a ha b hb hab => hk (by simp_all)⟩

theorem nodup_keys_foldl_put {α : Type} (v : Block → α) (bs : List Block) {t : List (Label × α)} (h : (t.map Prod.fst).Nodup) :
    ((bs.foldl (fun t b => Datum.put b.label (v b) t) t).map Prod.fst).Nodup := by
  induction bs generalizing t with
  | nil => exact h
  | cons b bs ih => exact ih (nodup_keys_put b.label (v b) h)

theorem Linked.keyed {es : List (Label × Label)} (h : Linked g es g') (hg : g.Keyed) : g'.Keyed where
  labels := by rw [labels, h.blocks]; exact hg.labels
  succs := by rw [h.succKeys]; exact hg.succs

theorem Unlinked.keyed {s p : Label → Label → Prop} (h : Unlinked g s p g') (hg : g.Keyed) : g'.Keyed where
  labels := by rw [labels, h.blocks]; exact hg.labels
  succs := by rw [h.succKeys]; exact hg.succs

theorem ofBlocks_keyed {name : String} {entry : Label} {bs : List Block} (h : ofBlocks name entry bs = .ok g) : g.Keyed := by
  rw [ofBlocks] at h
  split at h
  · next hrun =>
      cases h
      refine (forM_linked edgesOf (fun b _ _ => linkBlock_linked) hrun).keyed ⟨?_, ?_⟩
      · exact nodup_keys_foldl_put (fun b => b) bs nodup_nil
      · exact nodup_keys_foldl_put (fun _ => []) bs nodup_nil
  · cases h

theorem Change.run_keyed {c : Change} (h : c.run.run.run g = (.ok (), g')) (hg : g.Keyed) : g'.Keyed := by
  cases c with
  | addBlock b =>
    obtain ⟨hb, hl⟩ := addBlock_linked h
    refine hl.keyed ⟨?_, nodup_keys_put _ _ hg.succs⟩
    rw [labels, map_append]
    exact nodup_append.2 ⟨hg.labels, nodup_singleton _, fun a ha b hb hab => by simp_all [labels]⟩
  | removeBlock l =>
    have hr := removeBlock_removed h
    exact ⟨hr.labelsLeft.nodup hg.labels, hr.succsLeft.nodup hg.succs⟩
  | addEdge a b => exact (addEdge_linked h).keyed hg
  | removeEdge a b => exact (removeEdge_unlinked h).keyed hg

theorem Changed.keyed {cs : List Change} (h : g.Changed cs g') (hg : g.Keyed) : g'.Keyed := by
  induction cs generalizing g with
  | nil =>
    cases h
    exact hg
  | cons c cs ih =>
    obtain ⟨g₁, h₁, h₂⟩ := h.cons
    exact ih h₂ (Change.run_keyed h₁ hg)

theorem Coherent.edges (h : g.Coherent) (hg : g.Keyed) : ∀ e ∈ g.edges, e.1 ∈ g.labels ∧ e.2 ∈ g.labels := by
  rintro ⟨a, b⟩ hab
  have hb := (mem_edges hg).1 hab
  exact ⟨(h.succKeys a).1 (mem_keys_of_mem hb), h.closed a b hb⟩

end Keyed

end Graph

/-- Live at a line is what paths lead to a use of, and live behind it what is live at the lines that may come next. -/
structure Liveness.Exact (v : Liveness) (g : Graph) : Prop where
  livein : ∀ i ∈ g.lines, ∀ x, x ∈ v.livein i.id ↔ g.Reaches x i
  liveout : ∀ i ∈ g.lines, ∀ x, x ∈ v.liveout i.id ↔ ∃ j, g.Next i j ∧ x ∈ v.livein j.id

section Exact

variable {g : Graph} {v : Liveness} (hg : g.Keyed) (hids : g.Identified) (hphi : ∀ l ∈ g.lines, l.instr.isPhi = false)
include hg hids hphi

omit hphi in
theorem livein_of_reaches (h : liveness g = .ok v) (hi : i ∈ g.lines) (hx : g.Reaches x i) : x ∈ v.livein i.id := by
  obtain ⟨ps, m, hps, hm, hin, -⟩ := liveness_eq_ok h
  obtain ⟨ls, hchain, ⟨j, hj, huse⟩, hdefs⟩ := hx
  refine (hin _ _).2 ⟨.plain x, ?_, rfl⟩
  induction ls generalizing i with
  | nil =>
    cases hj
    exact hm.mem_of_uses hids hi huse
  | cons l ls ih =>
    rw [List.getLast?_cons_cons] at hj
    rw [dropLast_cons_cons, forall_mem_cons] at hdefs
    obtain ⟨hn, hchain⟩ := isChain_cons_cons.1 hchain
    exact hm.plain_of_next hg hps hn (ih hn.mem_lines.2 hchain hdefs.2 hj) hdefs.1

theorem reaches_of_livein (h : liveness g = .ok v) (hi : i ∈ g.lines) (hx : x ∈ v.livein i.id) : g.Reaches x i := by
  obtain ⟨ps, m, hps, hm, hin, -⟩ := liveness_eq_ok h
  have hstart : Carried ps (fun k u => ∀ l ∈ g.lines, l.id = k → g.Reaches u.temp l) (firstUses g) := by
    apply carried_temp (Q := fun k x => ∀ l ∈ g.lines, l.id = k → g.Reaches x l)
    · rintro _ u hu l hl rfl
      rw [firstUses_liveAt hids hl, mem_eraseDups] at hu
      apply Graph.Reaches.here
      rw [uses_eq (hphi l hl)] at hu
      obtain ⟨y, hy, rfl⟩ := mem_map.1 hu
      rw [uses_eq (hphi l hl)]
      exact mem_map_of_mem hy
    · intro p hp y hy hd l hl hid
      have hn := (exists_pair_iff hg hps).1 ⟨p, hp, rfl, rfl⟩
      rw [hids l hl p.line hn.mem_lines.1 hid]
      exact (hy p.next hn.mem_lines.2 rfl).back hn hd
  obtain ⟨u, hu, rfl⟩ := (hin i.id x).1 hx
  exact (hm.least _ hstart).holds i.id u hu i hi rfl

theorem liveness_exact (h : liveness g = .ok v) : v.Exact g where
  livein _ hi _ := ⟨reaches_of_livein hg hids hphi h hi, livein_of_reaches hg hids h hi⟩
  liveout _ hi _ := mem_liveout hphi hids hg h hi

end Exact

/-- Without phis and empty blocks, liveness is there, and exact, just if all edges lead from block to block. -/
theorem liveness_exact_iff {g : Graph} (hg : g.Keyed) (hids : g.Identified) (hphi : ∀ l ∈ g.lines, l.instr.isPhi = false)
    (hne : ∀ e ∈ g.blocks, e.2.lines ≠ []) :
    (∃ v, liveness g = .ok v ∧ v.Exact g) ↔ ∀ e ∈ g.edges, e.1 ∈ g.labels ∧ e.2 ∈ g.labels := by
  rw [← exists_liveness_iff hphi hg hne]
  constructor
  · rintro ⟨v, hv, -⟩
    exact ⟨v, hv⟩
  · rintro ⟨v, hv⟩
    exact ⟨v, hv, liveness_exact hg hids hphi hv⟩

def reducing : List Block :=
  [{ label := .name "%.L0", body := [⟨0, .const "%x" (.int 6)⟩], jumps := [⟨1, .jmp "%.L1"⟩] },
   { label := .name "%.L1", body := [⟨2, .binop .sub "%x" "%x" "%y"⟩], jumps := [⟨3, .jcc .z "%x" "%.L2"⟩, ⟨4, .jmp "%.L1"⟩] },
   { label := .name "%.L2", body := [], jumps := [⟨5, .ret (some "%x")⟩] }]

/-- The loop once more, with an edge from its end back to its start that no jump takes. -/
theorem liveness_exact_iff_reducing :
    ∃ g₀ g v, Graph.ofBlocks "@main" (.name "%.L0") reducing = .ok g₀ ∧ g₀.Changed [.addEdge (.name "%.L2") (.name "%.L0")] g ∧
      (g.Keyed ∧ g.Identified ∧ (∀ l ∈ g.lines, l.instr.isPhi = false) ∧ ∀ e ∈ g.blocks, e.2.lines ≠ []) ∧
      (∀ e ∈ g.edges, e.1 ∈ g.labels ∧ e.2 ∈ g.labels) ∧ liveness g = .ok v ∧ v.Exact g := by
  obtain ⟨g₀, h₀⟩ : ∃ g, Graph.ofBlocks "@main" (.name "%.L0") reducing = .ok g := Graph.ofBlocks_ok _ _ (by decide) (by decide)
  have hof := Graph.ofBlocks_spec (by decide) h₀
  obtain ⟨g, hg⟩ := Graph.addEdge_ok (a := .name "%.L2") (b := .name "%.L0") (g := g₀) (by rw [hof.succKeys]; decide)
    (by rw [hof.predKeys]; decide)
  have hchanged : g₀.Changed [.addEdge (.name "%.L2") (.name "%.L0")] g := Graph.changed_cons hg rfl
  have hkeyed := hchanged.keyed (Graph.ofBlocks_keyed h₀)
  have hblocks : g.blocks = reducing.map fun b => (b.label, b) := (Graph.addEdge_linked hg).blocks.trans hof.blocks
  have hlines : g.lines = reducing.flatMap Block.lines := by rw [Graph.lines, hblocks, flatMap_map]
  have hids : g.Identified := by
    rw [Graph.Identified, hlines]
    exact fun l hl m hm => inj_on_of_nodup_map (f := Line.id) (by decide) hl hm
  have hphi : ∀ l ∈ g.lines, l.instr.isPhi = false := by
    rw [hlines]
    decide
  have hne : ∀ e ∈ g.blocks, e.2.lines ≠ [] := by
    rw [hblocks, forall_mem_map]
    show ∀ b ∈ reducing, b.lines ≠ []
    decide
  have hedges := ((Graph.addEdge_linked hg).coherent hof.coherent).edges hkeyed
  obtain ⟨v, hv, hexact⟩ := (liveness_exact_iff hkeyed hids hphi hne).2 hedges
  exact ⟨g₀, g, v, h₀, hchanged, ⟨hkeyed, hids, hphi, hne⟩, hedges, hv, hexact⟩

/-- Where a block was removed that an edge still leads to, there is no liveness. -/
theorem not_exact_removed :
    ∃ g g', Graph.ofBlocks "@main" (.name "%.L0") Graph.jumping = .ok g ∧ g.Changed [.removeBlock (.name "%.L1")] g' ∧
      g'.blocks.map (fun e => code e.2.lines) = [[.jmp "%.L1"]] ∧ liveness g' = .error (.missing (.name "%.L1")) ∧
      ¬ ∃ v, liveness g' = .ok v ∧ v.Exact g' := by
  refine ⟨_, _, rfl, rfl, rfl, rfl, ?_⟩
  rintro ⟨v, hv, -⟩
  cases hv

end Bx.Flow
