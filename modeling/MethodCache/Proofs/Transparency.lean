import MethodCache.Proofs.Sharing

/-!
The shared tables cannot be seen. What a context answers from them stands for the value that
looking the slot up in the context finds: a description is turned into the context's own function
object through the call target of its number, and a call target, whenever it was resolved and for
whatever description, is the context's function object for the native of that number. So a
description may be called in any context, and it acts there as the context's own function object
does.
-/
namespace MethodCache

open ClassGraph Relation

namespace CallTargets

theorem get?_put (t : CallTargets) (i j : ℕ) (target : CallTarget) :
    (t.put i target).get? j = if i = j then some target else t.get? j := by
  have hgrown : (t.places ++ List.replicate (i + 1 - t.places.length) none)[j]?.join =
      t.places[j]?.join := by
    rw [List.getElem?_append]
    split
    · rfl
    · next hj =>
      rw [List.getElem?_eq_none (Nat.le_of_not_lt hj), List.getElem?_replicate]
      split <;> rfl
  unfold put get?
  rw [List.getElem?_set]
  by_cases hij : i = j
  · have hlt : i < (t.places ++ List.replicate (i + 1 - t.places.length) none).length := by
      rw [List.length_append, List.length_replicate]
      omega
    rw [if_pos hij, if_pos hij, if_pos hlt]
    rfl
  · rw [if_neg hij, if_neg hij, hgrown]

/-- Every target is the function object of one context for the native of its number. -/
def Owned (t : CallTargets) (x : DescriptorIndex) (id : ContextId) : Prop :=
  ∀ i target, t.get? i = some target → ∃ n, x.get? i = some n ∧ target.function = n.ownedBy id

namespace Owned

variable {t : CallTargets} {x y : DescriptorIndex} {id : ContextId} {i : ℕ} {n : Native}

theorem empty (x : DescriptorIndex) (id : ContextId) : ({} : CallTargets).Owned x id := by
  intro i target h
  simp [get?] at h

theorem mono (ho : t.Owned x id) (hxy : x.Extends y) : t.Owned y id := by
  intro i target h
  obtain ⟨n, hn, hf⟩ := ho i target h
  exact ⟨n, hxy i n hn, hf⟩

theorem function_eq (ho : t.Owned x id) (hn : x.get? i = some n) {target : CallTarget}
    (h : t.get? i = some target) : target.function = n.ownedBy id := by
  obtain ⟨m, hm, hf⟩ := ho i target h
  obtain rfl : n = m := Option.some.inj (hn.symm.trans hm)
  exact hf

theorem put (ho : t.Owned x id) (hn : x.get? i = some n) {target : CallTarget}
    (hf : target.function = n.ownedBy id) : (t.put i target).Owned x id := by
  intro j target' h
  rw [get?_put] at h
  split at h
  · next hij =>
    obtain rfl := Option.some.inj h
    exact ⟨n, hij ▸ hn, hf⟩
  · exact ho j target' h

/-- A target resolved under the number of a native is the function object for the native, whether
it was resolved now or before. -/
theorem getOrResolve (ho : t.Owned x id) (hn : x.get? i = some n)
    {resolve : Option CallTarget}
    (hr : ∀ target, resolve = some target → target.function = n.ownedBy id) :
    (t.getOrResolve i resolve).2.Owned x id ∧
    ∀ target, (t.getOrResolve i resolve).1 = some target → target.function = n.ownedBy id := by
  unfold CallTargets.getOrResolve
  cases hget : t.get? i with
  | some target =>
    refine ⟨ho, ?_⟩
    rintro _ ⟨⟩
    exact ho.function_eq hn hget
  | none =>
    cases resolve with
    | none =>
      refine ⟨ho, ?_⟩
      rintro target h
      simp at h
    | some target =>
      refine ⟨ho.put hn (hr target rfl), ?_⟩
      rintro _ ⟨⟩
      exact hr target rfl

theorem countCall (ho : t.Owned x id) (hn : x.get? i = some n) : (t.countCall i).Owned x id := by
  unfold CallTargets.countCall
  cases hget : t.get? i with
  | none => exact ho
  | some target =>
    have hf := ho.function_eq hn hget
    exact ho.put hn hf

end Owned

theorem getOrResolve_isSome (t : CallTargets) (i : ℕ) (target : CallTarget) :
    ∃ target', (t.getOrResolve i (some target)).1 = some target' := by
  unfold getOrResolve
  cases t.get? i with
  | some target' => exact ⟨target', rfl⟩
  | none => exact ⟨target, rfl⟩

end CallTargets

namespace Context

theorem read_of_unknown {c : Context} {h : SharedTables} {id : ClassId} {cls : ClassObject}
    {s : Slot} (hcls : c.graph.class? id = some cls) (hopen : c.sharedEntry h cls s = .unknown) :
    (c.read h id s).1 = .ofValue? (c.graph.slotValue id s) := by
  simp only [read, ClassGraph.slotValue, hcls, hopen, Option.bind_some]
  cases cls.cell? with
  | none => rfl
  | some cell =>
    simp only [Option.bind_some]
    cases cell.entry s <;> rfl

/-- The context has the built-in classes that every context has, and has resolved call targets to
its own function objects only. -/
structure Served (c : Context) (x : DescriptorIndex) : Prop where
  equipped : c.graph.Equipped c.id BuiltinType.slots
  owned : c.targets.Owned x c.id

namespace Served

variable {c : Context} {x y : DescriptorIndex} {d : Descriptor}

theorem mono (hc : c.Served x) (hxy : x.Extends y) : c.Served y :=
  ⟨hc.equipped, hc.owned.mono hxy⟩

theorem eq_of_ownFunction (hc : c.Served x) {f : BuiltinFunction}
    (h : c.ownFunction d = some f) : f = d.native.ownedBy c.id := by
  unfold ownFunction at h
  rw [(hc.equipped.stocked d.owner).ownMember] at h
  split at h
  · next g hg =>
    split at hg
    · obtain rfl := Value.builtin.inj (Option.some.inj hg)
      split at h
      · next hdesc =>
        have hnative : d.native = ⟨d.owner, d.slot⟩ := of_decide_eq_true hdesc
        rw [← Option.some.inj h, hnative]
      · simp at h
    · simp at hg
  · simp at h

theorem callTarget (hc : c.Served x) (hd : x.get? d.index = some d.native) :
    (c.callTarget d).2.Served x ∧
    ∀ target, (c.callTarget d).1 = some target → target.function = d.native.ownedBy c.id := by
  have hresolve : ∀ target, (c.ownFunction d).map CallTarget.fresh = some target →
      target.function = d.native.ownedBy c.id := by
    intro target htarget
    obtain ⟨f, hf, rfl⟩ := Option.map_eq_some_iff.mp htarget
    exact hc.eq_of_ownFunction hf
  obtain ⟨howned, hfunction⟩ := hc.owned.getOrResolve hd hresolve
  exact ⟨⟨hc.equipped, howned⟩, hfunction⟩

theorem exists_callTarget (hc : c.Served x) (hd : x.get? d.index = some d.native)
    (hnative : d.native = ⟨d.owner, d.slot⟩) (hslot : d.slot ∈ d.owner.slots) :
    ∃ target, (c.callTarget d).1 = some target ∧ target.function = d.native.ownedBy c.id := by
  have hown : c.ownFunction d = some (d.native.ownedBy c.id) := by
    unfold ownFunction
    rw [(hc.equipped.stocked d.owner).ownMember, if_pos hslot]
    simp [Descriptor.describes, Native.ownedBy, hnative]
  obtain ⟨target, htarget⟩ :=
    c.targets.getOrResolve_isSome d.index (.fresh (d.native.ownedBy c.id))
  have hanswer : (c.callTarget d).1 = some target := by
    rw [Context.callTarget, hown]
    exact htarget
  exact ⟨target, hanswer, (hc.callTarget hd).2 target hanswer⟩

theorem invoke [Hashing] (hc : c.Served x) (hd : x.get? d.index = some d.native)
    (args : List Value) : (c.invoke d args).2.Served x := by
  obtain ⟨hserved, -⟩ := hc.callTarget hd
  rcases c.invoke_snd d args with hsame | hsame
  · rw [hsame]
    exact hserved
  · rw [hsame]
    exact ⟨hserved.equipped, hserved.owned.countCall hd⟩

variable {c' : Context} {h : SharedTables}

theorem callTarget_entry (hc : c.Served x) (hd : h.Describe x) {t : BuiltinType} {s : Slot}
    (he : h.entry t s = .descriptor d) : (c.callTarget d).2.Served x := by
  obtain ⟨-, -, -, hi⟩ := hd.of_entry he
  exact (hc.callTarget hi).1

theorem check (hc : c.Served x) (hd : h.Describe x) : (c.check h).2.Served x := by
  apply check_induction (P := fun k => k.Served x) _ hc
  exact fun k t s d he hk => hk.callTarget_entry hd he

theorem apply (hc : c.Served x) (hs : c.graph.Sound) (e : ClassEdit) : (c.apply e).Served x := by
  obtain ⟨g, n, hg⟩ := c.apply_fst e
  have q := hc.equipped.step hs (c.apply_step e)
  rw [hg] at q ⊢
  exact ⟨q, hc.owned⟩

theorem acts {p : Host} (hc : c.Served p.index) (hp : p.Consistent) (ha : c.Acts p c') :
    c'.Served p.index := by
  cases ha with
  | read id s =>
    obtain ⟨n, hn⟩ := c.read_snd p.shared id s
    rw [hn]
    exact ⟨hc.equipped, hc.owned⟩
  | resolved hd => exact (hc.callTarget hd).1
  | invoked hd args => exact hc.invoke hd args
  | checked => exact hc.check hp
  | reset => exact ⟨hc.equipped, hc.owned⟩

/-- A read of a built-in class is answered from its own table, or by a shared description. -/
theorem read_cases (hc : c.Served x) (hd : h.Describe x) (t : BuiltinType) (s : Slot) :
    (c.read h t.classId s).1 = .ofValue? (c.graph.resolve t.classId s) ∨
    ∃ d, (c.read h t.classId s).1 = .descriptor d ∧ h.entry t s = .descriptor d := by
  obtain ⟨cls, hcls, hb, -, -⟩ := hc.equipped.stocked t
  rw [← hc.equipped.slotValue t s]
  cases hshared : c.config.sharedTier with
  | false =>
    left
    apply read_of_unknown hcls
    simp [sharedEntry, hshared]
  | true =>
    have hentry : c.sharedEntry h cls s = h.entry t s := by simp [sharedEntry, hshared, hb]
    cases he : h.entry t s with
    | unknown => exact Or.inl (read_of_unknown hcls (hentry.trans he))
    | constant v => exact absurd he (hd.ne_constant t s v)
    | descriptor d =>
      refine Or.inr ⟨d, ?_, rfl⟩
      simp only [Context.read, hcls, hentry, he]

/-- What a shared description stands for in a context, and how calling it ends there. -/
theorem of_entry (hc : c.Served x) (hd : h.Describe x) {t : BuiltinType} {s : Slot}
    (he : h.entry t s = .descriptor d) :
    let f := d.native.ownedBy c.id
    c.graph.resolve t.classId s = some (.builtin f) ∧
    (c.materialize (.descriptor d)).1 = some (.builtin f) ∧
    ∀ [Hashing] args, (c.invoke d args).1 = some (f.call args) := by
  obtain ⟨hu, rfl, hnative, hi⟩ := hd.of_entry he
  obtain ⟨target, htarget, hf⟩ :=
    hc.exists_callTarget hi hnative (BuiltinType.mem_of_definer? hu)
  refine ⟨?_, ?_, fun {_} args => ?_⟩
  · rw [hc.equipped.resolve, hu, Option.map_some, hnative]
  · simp only [materialize, htarget, Option.map_some, hf]
  · rw [invoke_fst, htarget, Option.map_some, hf]

end Served

end Context

namespace Host

theorem start_served {p : Host} (hp : p.Consistent) (config : Config) :
    (p.start config).1.Served (p.start config).2.index := by
  obtain ⟨-, hp'⟩ := p.start_consistent hp config
  apply p.start_induction config (P := fun c => c.Served (p.start config).2.index)
  · refine ⟨Context.equipped_freezeAll p.nextContext config, ?_⟩
    obtain ⟨g, hg⟩ := Context.foldl_fst Context.freezeBuiltin_fst BuiltinType.all
      (Context.withBuiltins p.nextContext config)
    rw [hg]
    exact .empty _ _
  · exact fun c t s d he hc => hc.callTarget_entry hp' he

end Host

namespace Process

variable {p q : Process}

/-- The host is consistent, and every context that has ids left is served. -/
structure Serves (p : Process) : Prop where
  host : p.host.Consistent
  contexts : ∀ c n, (c, n) ∈ p.contexts → n < ClassId.available → c.Served p.host.index

theorem Serves.step (hp : p.Serves) (hreach : p.Reachable) (hstep : Step p q) :
    p.host.index.Extends q.host.index ∧ q.Serves := by
  have hhost : p.host.index.Extends q.host.index ∧ q.host.Consistent := by
    cases hstep with
    | started config => exact p.host.start_consistent hp.host config
    | numbered n => exact Host.number_consistent hp.host n
    | skipped | edited _ _ | acted _ _ => exact ⟨.refl _, hp.host⟩
  obtain ⟨hext, hconsistent⟩ := hhost
  refine ⟨hext, hconsistent, ?_⟩
  apply hstep.forall_contexts _ _ _ fun c n hc hn => (hp.contexts c n hc hn).mono hext
  · intro config hq _
    rw [hq]
    exact Host.start_served hp.host config
  · intro c n hc hserved e hn
    have hbefore : n < ClassId.available := Nat.lt_of_le_of_lt (Nat.le_add_right _ _) hn
    exact (hserved hbefore).apply (hreach.sound hc hbefore) e
  · intro c n c' hc _ ha hn
    exact ((hp.contexts c n hc hn).acts hp.host ha).mono hext

theorem Serves.leads (hp : p.Serves) (hreach : p.Reachable) (hleads : Leads p q) :
    p.host.index.Extends q.host.index ∧ q.Serves := by
  induction hleads with
  | refl => exact ⟨.refl _, hp⟩
  | tail hbefore hstep ih =>
    obtain ⟨hext, hserves⟩ := ih.2.step (hreach.trans hbefore) hstep
    exact ⟨ih.1.trans hext, hserves⟩

theorem Reachable.serves (hp : p.Reachable) : p.Serves := by
  have hempty : Serves {} := by
    refine ⟨SharedTables.describe_empty _, ?_⟩
    intro c n hc
    simp at hc
  exact (hempty.leads .refl hp).2

/-- Whether or not reads go to the shared tables first, what a context reads of a slot of a
built-in class stands for the value that looking the slot up finds, and so does what its own table
holds. A descriptor that is read stands for the value that any context finds, then and later, and
calling it in a context ends as calling the context's own function object does, and as calling the
native in the context does. -/
theorem reads_stand_for_lookups (hp : p.Reachable) {c : Context} {n : ℕ}
    (hc : (c, n) ∈ p.contexts) (hn : n < ClassId.available) (t : BuiltinType) (s : Slot) :
    ((c.read p.host.shared t.classId s).2.materialize
      (c.read p.host.shared t.classId s).1).1 = c.graph.resolve t.classId s ∧
    c.graph.slotValue t.classId s = c.graph.resolve t.classId s ∧
    ∀ d, (c.read p.host.shared t.classId s).1 = .descriptor d →
      ∀ q, p.Leads q → ∀ c' m, (c', m) ∈ q.contexts → m < ClassId.available →
        ∃ f : BuiltinFunction, c'.graph.resolve t.classId s = some (.builtin f) ∧
          f.context = c'.id ∧ (c'.materialize (.descriptor d)).1 = some (.builtin f) ∧
          ∀ [Hashing] args, (c'.invoke d args).1 = some (f.call args) ∧
            (c'.invoke d args).1 = some (d.call c'.id args) := by
  have hserves := hp.serves
  have hserved := hserves.contexts c n hc hn
  have hcases := hserved.read_cases hserves.host t s
  refine ⟨?_, hserved.equipped.slotValue t s, ?_⟩
  · obtain ⟨n, hn⟩ := c.read_snd p.host.shared t.classId s
    rw [hn]
    rcases hcases with hown | ⟨d, hread, hentry⟩
    · rw [hown]
      cases c.graph.resolve t.classId s <;> rfl
    · have hserved' : Context.Served { c with reads := n } p.host.index :=
        ⟨hserved.equipped, hserved.owned⟩
      obtain ⟨hresolve, hvalue, -⟩ := hserved'.of_entry hserves.host hentry
      rw [hread]
      exact hvalue.trans hresolve.symm
  · intro d hread q hleads c' m hc' hm
    obtain ⟨hext, hserves'⟩ := hserves.leads hp hleads
    have hentry : p.host.shared.entry t s = .descriptor d := by
      rcases hcases with hown | ⟨e, hread', hentry⟩
      · rw [hown] at hread
        cases hv : c.graph.resolve t.classId s <;> simp [hv, SlotRead.ofValue?] at hread
      · rw [hread'] at hread
        rw [hentry, SlotRead.descriptor.inj hread]
    obtain ⟨hresolve, hvalue, hcall⟩ :=
      (hserves'.contexts c' m hc' hm).of_entry (hserves.host.mono hext) hentry
    exact ⟨_, hresolve, rfl, hvalue, fun {_} args => ⟨hcall args, hcall args⟩⟩

/-- A process of two contexts, the first of which fills the shared tables. -/
def paired : Process :=
  let p := ofRun .unchecked []
  ⟨(p.host.start .unchecked).2, p.contexts ++ [((p.host.start .unchecked).1, 0)]⟩

/-- Truth values are compared as whole numbers are, and what the first context shares of that may
be called in the second one. -/
theorem paired_stand_for_lookups :
    ∃ c c' n d, (c, n) ∈ (ofRun .unchecked []).contexts ∧ (c', n) ∈ paired.contexts ∧
      n < ClassId.available ∧
      (c.read (ofRun .unchecked []).host.shared BuiltinType.bool.classId .eq).1 = .descriptor d ∧
      d.native = ⟨.int, .eq⟩ ∧
      ∀ [Hashing], (c'.invoke d [.bool true, .bool true]).1 = some (.ok (.bool true)) := by
  let p := ofRun .unchecked []
  let c := (({} : Host).start .unchecked).1.run []
  let c' := (p.host.start .unchecked).1
  have hsame : (c.read p.host.shared BuiltinType.bool.classId .eq).1.same
      (.descriptor ⟨.eq, ⟨.int, .eq⟩, 0, .int⟩) = true := by decide +kernel
  obtain ⟨d, hd, hnative⟩ : ∃ d, (c.read p.host.shared BuiltinType.bool.classId .eq).1 =
      .descriptor d ∧ d.native = ⟨.int, .eq⟩ := by
    generalize (c.read p.host.shared BuiltinType.bool.classId .eq).1 = r at hsame
    cases r with
    | descriptor d =>
      simp only [SlotRead.same, Descriptor.same, Bool.and_eq_true, decide_eq_true_eq] at hsame
      exact ⟨d, rfl, hsame.2⟩
    | value v => simp [SlotRead.same] at hsame
    | absent => simp [SlotRead.same] at hsame
  have hc : (c, 0) ∈ p.contexts := List.mem_singleton_self _
  have hc' : (c', 0) ∈ paired.contexts := List.mem_append_right _ (List.mem_singleton_self _)
  have hn : 0 < ClassId.available := by decide
  have hleads : p.Leads paired := .single (.started .unchecked)
  obtain ⟨-, -, hall⟩ := reads_stand_for_lookups (reachable_ofRun .unchecked []) hc hn .bool .eq
  obtain ⟨f, -, -, -, hcall⟩ := hall d hd paired hleads c' 0 hc' hn
  refine ⟨c, c', 0, d, hc, hc', hn, hd, hnative, fun {_} => ?_⟩
  rw [(hcall _).2, Descriptor.call, hnative]
  rfl

end Process

end MethodCache
