import ManagedCode.Machine.Enter
import ManagedCode.Proofs.Extends
import ManagedCode.Proofs.Patches
import ManagedCode.Proofs.Quiet

/-!
# Methods that are ready

`Prepared.Sound md p` says how a method that was made ready belongs to what was declared: its analysis was accepted in
the tables `md`, its regions and kinds are the declared ones, and its code is the declared code with cached calls, each
of which has a call site that the declared instruction names. So an instruction that was analyzed reads as declared, or
as the cached call of its own site (`Sound.reads`).

`Machine.Evolves` says how the methods of a machine change: none is lost, and of each one only call sites are added and
code is patched.
-/

namespace ManagedCode

/-! ## Call sites -/

namespace CallSite

/-- The instruction that the call site was made for. -/
def kind : CallSite → CallKind
  | call _ => .call
  | callvirt _ => .callvirt
  | newobj _ _ => .newobj
  | jmp _ => .jmp

/-- The method that the token of the instruction named. -/
def method : CallSite → MethodSymbol
  | call m | callvirt m | newobj m _ | jmp m => m

/-- The call site is what a token names; the method may have been given a body since. -/
structure Names (md : Metadata) (t : Token) (site : CallSite) : Prop where
  method : ∃ b, md.resolveMethod t = .ok { site.method with body := b }
  type : ∀ m type, site = .newobj m type → md.typeOf m.declaring = .ok type

theorem Names.extends {md md' : Metadata} {t : Token} {site : CallSite} (h : site.Names md t) (he : md.Extends md') :
    site.Names md' t where
  method := by
    obtain ⟨b, hb⟩ := h.method
    obtain ⟨b', hb'⟩ := he.resolveMethod hb
    exact ⟨b', hb'⟩
  type := fun m type hs => he.typeOf (h.type m type hs)

end CallSite

namespace Opcode

/-- The instruction of a call site has one byte and a token. -/
theorem size_callSite (op : Opcode) {k : CallKind} (h : op.action = .callSite k) : op.size = 1 := by
  cases op <;> first | rfl | cases h

end Opcode

namespace Prepared

variable {md md' : Metadata} {p p' : Prepared} {pc next : Nat} {op : Opcode}

/-- The body that the method was declared with. -/
def body (p : Prepared) : Body := p.symbol.body.getD default

/-- The code as it was declared. -/
def declared (p : Prepared) : Code := ⟨p.body.code⟩

/-- What the method was analyzed in. -/
def context (p : Prepared) (md : Metadata) : Analysis.Context := Analysis.contextOf md p.symbol p.body

/-- The call site belongs to the instruction at `pc`. -/
structure HasSite (md : Metadata) (p : Prepared) (pc : Nat) (site : CallSite) : Prop where
  reachable : p.analysis.isReachable pc = true
  opcode : ∃ op, p.declared.opcodeAt pc = .ok op ∧ op.action = .callSite site.kind
  names : ∃ t, p.declared.token pc = .ok t ∧ site.Names md t

/-- The offsets of the call sites, in the order of their numbers. -/
structure Sites (md : Metadata) (p : Prepared) (offsets : List Nat) : Prop where
  patched : p.declared.Patched p.code offsets
  length : offsets.length = p.callSites.size
  site : ∀ (i pc : Nat) site, offsets[i]? = some pc → p.callSites[i]? = some site → p.HasSite md pc site

/-- **A method that is ready belongs to its declaration.** -/
structure Sound (md : Metadata) (p : Prepared) : Prop where
  accepted : Analysis.Accepted (p.context md) p.analysis
  regions : p.regions.entries.map (·.region) = p.body.regions
  layout : p.layout = ⟨p.symbol.signature.arity, p.body.locals.length, p.body.maxStack⟩
  argumentKinds : p.argumentKinds = p.symbol.signature.arguments
  localKinds : p.localKinds = p.body.locals
  sites : ∃ offsets, p.Sites md offsets

/-- Every argument and local has a kind. -/
structure Framed (p : Prepared) : Prop where
  arguments : p.argumentKinds.length = p.layout.arguments
  locals : p.localKinds.length = p.layout.locals

theorem Sound.framed (h : p.Sound md) : p.Framed where
  arguments := by
    rw [h.argumentKinds, h.layout]
    rfl
  locals := by rw [h.localKinds, h.layout]

theorem framed_make (symbol : MethodSymbol) (body : Body) (analysis : MethodAnalysis) (regions : RegionTable) :
    (make symbol body analysis regions).Framed := ⟨rfl, rfl⟩

theorem HasSite.extends {site : CallSite} (h : p.HasSite md pc site) (he : md.Extends md') : p.HasSite md' pc site where
  reachable := h.reachable
  opcode := h.opcode
  names := by
    obtain ⟨t, ht, hn⟩ := h.names
    exact ⟨t, ht, hn.extends he⟩

theorem Sound.extends (h : p.Sound md) (he : md.Extends md') : p.Sound md' where
  accepted := h.accepted.within he
  regions := h.regions
  layout := h.layout
  argumentKinds := h.argumentKinds
  localKinds := h.localKinds
  sites := by
    obtain ⟨offsets, hs⟩ := h.sites
    exact ⟨offsets, hs.patched, hs.length, fun i pc site hi hc => (hs.site i pc site hi hc).extends he⟩

/-! ## How methods change -/

/-- Only call sites were added, and code was patched. -/
structure Evolves (p p' : Prepared) : Prop where
  same : p' = { p with code := p'.code, callSites := p'.callSites }
  sites : ∃ more, p'.callSites = p.callSites ++ more

theorem Evolves.refl (p : Prepared) : p.Evolves p := ⟨rfl, #[], Array.append_empty.symm⟩

theorem Evolves.trans {p'' : Prepared} (h : p.Evolves p') (h' : p'.Evolves p'') : p.Evolves p'' where
  same := by rw [h'.same, h.same]
  sites := by
    obtain ⟨xs, hx⟩ := h.sites
    obtain ⟨ys, hy⟩ := h'.sites
    exact ⟨xs ++ ys, by rw [hy, hx, Array.append_assoc]⟩

namespace Evolves

variable (h : p.Evolves p')
include h

theorem analysis : p'.analysis = p.analysis := by rw [h.same]

theorem layout : p'.layout = p.layout := by rw [h.same]

theorem symbol : p'.symbol = p.symbol := by rw [h.same]

theorem body : p'.body = p.body := by rw [Prepared.body, h.symbol, Prepared.body]

theorem declared : p'.declared = p.declared := by rw [Prepared.declared, h.body, Prepared.declared]

theorem context (md : Metadata) : p'.context md = p.context md := by rw [Prepared.context, h.symbol, h.body, Prepared.context]

theorem regions : p'.regions = p.regions := by rw [h.same]

theorem argumentKinds : p'.argumentKinds = p.argumentKinds := by rw [h.same]

theorem localKinds : p'.localKinds = p.localKinds := by rw [h.same]

theorem hasSite {site : CallSite} (hs : p.HasSite md pc site) : p'.HasSite md pc site where
  reachable := by rw [h.analysis]; exact hs.reachable
  opcode := by rw [h.declared]; exact hs.opcode
  names := by rw [h.declared]; exact hs.names

end Evolves

/-- The method with one more call site, and the instruction at `pc` overwritten by a cached call of it. -/
def withSite (p : Prepared) (pc : Nat) (site : CallSite) : Prepared :=
  { p with code := p.code.write pc (Code.cachedBytes p.callSites.size), callSites := p.callSites.push site }

theorem evolves_withSite (p : Prepared) (pc : Nat) (site : CallSite) : p.Evolves (p.withSite pc site) :=
  ⟨rfl, #[site], rfl⟩

/-! ## Reading analyzed instructions -/

/-- The instruction that was declared at `pc`, with the offset of the next one. -/
structure Declares (p : Prepared) (pc : Nat) (op : Opcode) (next : Nat) : Prop where
  opcode : p.declared.opcodeAt pc = .ok op
  next : p.declared.nextOffset pc = .ok next

/-- Where the bytes of an instruction are the declared ones, it reads as declared. -/
theorem Declares.reads (h : p.Declares pc op next) (ha : p.declared.AgreeOn p.code pc next) :
    ExecM.Reads p pc op next :=
  ⟨Code.opcodeAt_agree h.opcode ha (Code.nextOffset_bounds h.next h.opcode).1, Code.nextOffset_agree h.next ha⟩

/-- The instruction at `pc` is the cached call of number `i`. -/
structure CachedAt (p : Prepared) (pc i next : Nat) : Prop where
  opcode : p.code.opcodeAt pc = .ok .cachedCall
  next : p.code.nextOffset pc = .ok next
  operand : p.code.operand 4 pc = .ok (i % 2 ^ 32)

theorem Declares.next_callSite {k : CallKind} (h : p.Declares pc op next) (ha : op.action = .callSite k) :
    next = pc + 5 := by
  have := Code.nextOffset_fixed h.next h.opcode (op.size?_of_width? (n := 4) (by rw [ha]; rfl))
  rw [op.size_callSite ha] at this
  omega

/-- An entry of two lists of the same length that got one more entry each. -/
theorem getElem?_both {offsets : List Nat} {sites : Array CallSite} {site s : CallSite} {i off : Nat}
    (hlen : offsets.length = sites.size) (hi : (offsets ++ [pc])[i]? = some off) (hs : (sites.push site)[i]? = some s) :
    (offsets[i]? = some off ∧ sites[i]? = some s) ∨ (off = pc ∧ s = site) := by
  rcases Nat.lt_trichotomy i offsets.length with hlt | heq | hgt
  · rw [List.getElem?_append_left hlt] at hi
    rw [Array.getElem?_push_lt (hlen ▸ hlt), ← Array.getElem?_eq_getElem] at hs
    exact .inl ⟨hi, hs⟩
  · subst heq
    rw [List.getElem?_concat_length] at hi
    rw [hlen, Array.getElem?_push_size] at hs
    exact .inr ⟨(Option.some.inj hi).symm, (Option.some.inj hs).symm⟩
  · rw [List.getElem?_eq_none (by rw [List.length_append]; exact hgt)] at hi
    cases hi

namespace Sound

theorem visit (h : p.Sound md) (hr : p.analysis.isReachable pc = true) :
    ∃ stack, Analysis.Flows (p.context md) p.analysis pc stack ∧
      ∃ v : Analysis.Visit (p.context md) p.analysis pc stack,
        ∀ s ∈ v.successors, p.analysis.isReachable s.offset = true := h.accepted.visited pc hr

/-- A reachable offset has an instruction. -/
theorem declares (h : p.Sound md) (hr : p.analysis.isReachable pc = true) : ∃ op next, p.Declares pc op next := by
  obtain ⟨stack, -, v, -⟩ := h.visit hr
  obtain ⟨next, hn, -⟩ := h.accepted.scanned.next pc v.isStart
  exact ⟨v.op, next, v.opcode, hn⟩

theorem isStart (h : p.Sound md) (hr : p.analysis.isReachable pc = true) : p.analysis.isStart pc = true := by
  obtain ⟨stack, -, v, -⟩ := h.visit hr
  exact v.isStart

/-- A method has no more call sites than bytes. -/
theorem size_le (h : p.Sound md) : p.callSites.size ≤ p.declared.size := by
  obtain ⟨offsets, hs⟩ := h.sites
  rw [← hs.length]
  exact hs.patched.length_le

/-- A site is another instruction than the one at `pc`, and no two instructions overlap. -/
theorem apart {offsets : List Nat} {off : Nat} (h : p.Sound md) (hs : p.Sites md offsets)
    (hst : p.analysis.isStart pc = true) (hd : p.Declares pc op next) (ho : off ∈ offsets) (hne : off ≠ pc) :
    off + 5 ≤ pc ∨ next ≤ off := by
  obtain ⟨i, hi⟩ := List.mem_iff_getElem?.1 ho
  have hlt := (List.getElem?_eq_some_iff.1 hi).1
  have hhas := hs.site i off _ hi (Array.getElem?_eq_getElem (hs.length ▸ hlt))
  obtain ⟨op', next', hd'⟩ := h.declares hhas.reachable
  obtain ⟨op'', hop, ha⟩ := hhas.opcode
  cases hd'.opcode.symm.trans hop
  have hnext := hd'.next_callSite ha
  rcases Nat.lt_or_gt_of_ne hne with hlt | hgt
  · have := h.accepted.scanned.le_of_lt (h.isStart hhas.reachable) hst hd'.next hlt
    exact .inl (by omega)
  · exact .inr (h.accepted.scanned.le_of_lt hst (h.isStart hhas.reachable) hd.next hgt)

/-- **An instruction reads as declared**, unless it is a call site that was resolved, which reads as the cached call of
its own number. -/
theorem reads_sites {offsets : List Nat} (h : p.Sound md) (hs : p.Sites md offsets) (hst : p.analysis.isStart pc = true)
    (hd : p.Declares pc op next) : (pc ∉ offsets ∧ p.declared.AgreeOn p.code pc next) ∨
    ∃ i site, offsets[i]? = some pc ∧ p.callSites[i]? = some site ∧ p.HasSite md pc site ∧ p.CachedAt pc i next := by
  by_cases hm : pc ∈ offsets
  · obtain ⟨i, hi⟩ := List.mem_iff_getElem?.1 hm
    obtain ⟨site, hsite⟩ : ∃ site, p.callSites[i]? = some site := by
      have hlt := (List.getElem?_eq_some_iff.1 hi).1
      exact ⟨_, Array.getElem?_eq_getElem (hs.length ▸ hlt)⟩
    have hhas := hs.site i pc site hi hsite
    obtain ⟨op', hop, ha⟩ := hhas.opcode
    cases hd.opcode.symm.trans hop
    obtain ⟨h1, h2, h3⟩ := hs.patched.read_site hi
    rw [← hd.next_callSite ha] at h2
    exact .inr ⟨i, site, hi, hsite, hhas, h1, h2, h3⟩
  · refine .inl ⟨hm, hs.patched.agreeOn fun off ho => h.apart hs hst hd ho ?_⟩
    rintro rfl
    exact hm ho

/-- **An instruction that was analyzed reads as declared**, unless it is a call site, which may read as the cached call
of its own number. -/
theorem reads (h : p.Sound md) (hr : p.analysis.isReachable pc = true) (hd : p.Declares pc op next) :
    p.declared.AgreeOn p.code pc next ∨
    ∃ i site, p.callSites[i]? = some site ∧ p.HasSite md pc site ∧ p.CachedAt pc i next := by
  obtain ⟨offsets, hs⟩ := h.sites
  rcases h.reads_sites hs (h.isStart hr) hd with ⟨-, ha⟩ | ⟨i, site, -, hcached⟩
  · exact .inl ha
  · exact .inr ⟨i, site, hcached⟩

/-- Whatever the instruction at a reachable offset reads as, the next offset is the declared one. -/
theorem readable (h : p.Sound md) (hr : p.analysis.isReachable pc = true) (hd : p.Declares pc op next) :
    ∃ op', ExecM.Reads p pc op' next := by
  rcases h.reads hr hd with ha | ⟨i, site, -, -, hc⟩
  · exact ⟨op, hd.reads ha⟩
  · exact ⟨.cachedCall, hc.opcode, hc.next⟩

/-- The offset of a call site that was resolved joins those of the others. -/
theorem install_sites {offsets : List Nat} {site : CallSite} {t : Token} (h : p.Sound md) (hs : p.Sites md offsets)
    (hr : p.analysis.isReachable pc = true) (hd : p.Declares pc op next) (hop : p.code.opcodeAt pc = .ok op)
    (ha : op.action = .callSite site.kind) (ht : p.declared.token pc = .ok t) (hn : site.Names md t) :
    (p.withSite pc site).Sites md (offsets ++ [pc]) := by
  have hnext := hd.next_callSite ha
  have hpc : pc ∉ offsets := by
    intro hm
    obtain ⟨i, hi⟩ := List.mem_iff_getElem?.1 hm
    have hop' := (hs.patched.read_site hi).1
    rw [hop] at hop'
    rw [Except.ok.inj hop'] at ha
    exact Action.noConfusion ha
  have hsize : pc + 5 ≤ p.declared.size := hnext ▸ (Code.nextOffset_bounds hd.next hd.opcode).2
  have happ : ∀ off ∈ offsets, off + 5 ≤ pc ∨ pc + 5 ≤ off := by
    intro off ho
    have := h.apart hs (h.isStart hr) hd ho (by rintro rfl; exact hpc ho)
    omega
  have he := p.evolves_withSite pc site
  refine ⟨?_, ?_, ?_⟩
  · have := hs.patched.write hsize happ
    rw [hs.length] at this
    rw [he.declared]
    exact this
  · rw [List.length_append, hs.length]
    exact (Array.size_push ..).symm
  · intro i off s hi hsi
    rcases getElem?_both hs.length hi hsi with ⟨hi, hsi⟩ | ⟨rfl, rfl⟩
    · exact he.hasSite (hs.site i off s hi hsi)
    · exact he.hasSite ⟨hr, ⟨op, hd.opcode, ha⟩, t, ht, hn⟩

/-- **A resolved call site keeps the method sound.** -/
theorem install {site : CallSite} {t : Token} (h : p.Sound md) (hr : p.analysis.isReachable pc = true)
    (hd : p.Declares pc op next) (hop : p.code.opcodeAt pc = .ok op) (ha : op.action = .callSite site.kind)
    (ht : p.declared.token pc = .ok t) (hn : site.Names md t) : (p.withSite pc site).Sound md := by
  obtain ⟨offsets, hs⟩ := h.sites
  have he := p.evolves_withSite pc site
  refine ⟨?_, ?_, ?_, ?_, ?_, _, h.install_sites hs hr hd hop ha ht hn⟩
  · rw [he.context, he.analysis]; exact h.accepted
  · rw [he.regions, he.body]; exact h.regions
  · rw [he.layout, he.symbol, he.body]; exact h.layout
  · rw [he.argumentKinds, he.symbol]; exact h.argumentKinds
  · rw [he.localKinds, he.body]; exact h.localKinds

end Sound

end Prepared

theorem lookup_insertEntry {κ ν : Type} [BEq κ] [LawfulBEq κ] (k j : κ) (v : ν) :
    ∀ l : List (κ × ν), (insertEntry k v l).lookup j = if j == k then some v else l.lookup j
  | [] => by
    rw [insertEntry, List.lookup_cons, List.lookup_nil]
    cases j == k <;> rfl
  | (i, w) :: l => by
    rw [insertEntry]
    by_cases hi : i == k
    · rw [if_pos hi, List.lookup_cons, List.lookup_cons, eq_of_beq hi]
      cases j == k <;> rfl
    · rw [if_neg hi, List.lookup_cons, lookup_insertEntry k j v l, List.lookup_cons]
      by_cases hj : j == i
      · have : (j == k) = false := by
          rw [eq_of_beq hj]
          simpa using hi
        rw [hj, this]
        rfl
      · simp only [hj]

namespace Machine

variable {m m' m'' : Machine}

/-- **Every method that is ready belongs to its declaration.** -/
def Sound (m : Machine) : Prop := ∀ h p, m.prepared? h = some p → p.Sound m.metadata

/-- **What a run leaves of a machine**: its tables, and every method that was ready. -/
structure Evolves (m m' : Machine) : Prop where
  metadata : m'.metadata = m.metadata
  prepared : ∀ h p, m.prepared? h = some p → ∃ p', m'.prepared? h = some p' ∧ p.Evolves p'

theorem Evolves.refl (m : Machine) : m.Evolves m := ⟨rfl, fun _ p hp => ⟨p, hp, .refl p⟩⟩

theorem Evolves.trans (h : m.Evolves m') (h' : m'.Evolves m'') : m.Evolves m'' where
  metadata := h'.metadata.trans h.metadata
  prepared := by
    intro k p hp
    obtain ⟨p', hp', he⟩ := h.prepared k p hp
    obtain ⟨p'', hp'', he'⟩ := h'.prepared k p' hp'
    exact ⟨p'', hp'', he.trans he'⟩

/-- The tables and the methods are the same. -/
structure SamePrograms (m m' : Machine) : Prop where
  metadata : m'.metadata = m.metadata
  prepared : m'.prepared = m.prepared

theorem SamePrograms.prepared? (h : m.SamePrograms m') (k : MethodHandle) : m'.prepared? k = m.prepared? k := by
  rw [Machine.prepared?, Machine.prepared?, h.prepared]

theorem SamePrograms.evolves (h : m.SamePrograms m') : m.Evolves m' :=
  ⟨h.metadata, fun k p hp => ⟨p, (h.prepared? k).trans hp, .refl p⟩⟩

theorem SamePrograms.sound (h : m.SamePrograms m') (hm : m.Sound) : m'.Sound := by
  intro k p hp
  rw [h.metadata]
  exact hm k p ((h.prepared? k).symm.trans hp)

/-- One method of a machine becomes ready, or changes. -/
theorem Evolves.set {h : MethodHandle} {p : Prepared} (hm : m'.metadata = m.metadata)
    (hp : m'.prepared = insertEntry h p m.prepared) (he : ∀ q, m.prepared? h = some q → q.Evolves p) :
    m.Evolves m' where
  metadata := hm
  prepared := by
    intro k q hq
    rw [prepared?, hp, lookup_insertEntry]
    by_cases hk : k == h
    · rw [if_pos hk]
      rw [eq_of_beq hk] at hq
      exact ⟨p, rfl, he q hq⟩
    · rw [if_neg hk]
      exact ⟨q, hq, .refl q⟩

theorem Sound.set {h : MethodHandle} {p : Prepared} (hs : m.Sound) (hm : m'.metadata = m.metadata)
    (hp : m'.prepared = insertEntry h p m.prepared) (hnew : p.Sound m.metadata) : m'.Sound := by
  intro k q hq
  rw [prepared?, hp, lookup_insertEntry] at hq
  rw [hm]
  by_cases hk : k == h
  · rw [if_pos hk] at hq
    cases hq
    exact hnew
  · rw [if_neg hk] at hq
    exact hs k q hq

end Machine

/-! ## Becoming ready -/

theorem RegionTable.resolve_ok {md : Metadata} {regions : List Region} {t : RegionTable}
    (h : resolve md regions = .ok t) : t.entries.map (·.region) = regions := by
  have all : ∀ {f : Region → Except EngineError ResolvedRegion}, (∀ r e, f r = .ok e → e.region = r) →
      ∀ (rs : List Region) (es : List ResolvedRegion), rs.mapM f = .ok es → es.map (·.region) = rs := by
    intro f hf rs
    induction rs with
    | nil =>
      intro es hes
      cases hes
      rfl
    | cons r rs ih =>
      intro es hes
      rw [List.mapM_cons] at hes
      cases hr : f r with
      | error e => rw [hr] at hes; cases hes
      | ok e =>
        cases hrs : rs.mapM f with
        | error e => rw [hr, hrs] at hes; cases hes
        | ok es' =>
          rw [hr, hrs] at hes
          cases hes
          rw [List.map_cons, hf r e hr, ih es' hrs]
  unfold resolve at h
  simp only [bind, Except.bind, pure, Except.pure] at h
  split at h
  · cases h
  · rename_i es hes
    cases h
    refine all (fun r e he => ?_) regions es hes
    split at he
    · split at he
      · cases he; rfl
      · cases he
    · cases he; rfl

theorem Prepared.sound_make {md : Metadata} {symbol : MethodSymbol} {body : Body} {analysis : MethodAnalysis}
    {regions : RegionTable} (hb : symbol.body = some body) (ha : (analyze md symbol).1 = .ok analysis)
    (hr : RegionTable.resolve md body.regions = .ok regions) :
    (Prepared.make symbol body analysis regions).Sound md := by
  have hbody : (Prepared.make symbol body analysis regions).body = body := by
    show symbol.body.getD default = body
    rw [hb]
    rfl
  refine ⟨?_, ?_, ?_, rfl, ?_, [], ?_, rfl, fun i pc site hi _ => by cases hi⟩
  · rw [Prepared.context, hbody]
    exact analyze_accepted hb ha
  · rw [hbody]
    exact RegionTable.resolve_ok hr
  · rw [hbody]
    rfl
  · rw [hbody]
    rfl
  · rw [Prepared.declared, hbody]
    exact .refl _

namespace Machine

variable {m : Machine} {symbol : MethodSymbol}

/-- **What making a method ready can do**: it is ready already, it is refused, or it is added to the others. -/
inductive Prepares (m : Machine) (symbol : MethodSymbol) : Except EngineError Prepared × Machine → Prop where
  | ready {p : Prepared} : m.prepared? symbol.handle = some p → Prepares m symbol (.ok p, m)
  | refused (e : EngineError) (lookups : Nat) : Prepares m symbol (.error e, { m with lookups })
  | made {body : Body} {analysis : MethodAnalysis} {regions : RegionTable} {lookups : Nat} {metrics : Metrics} :
      m.prepared? symbol.handle = none → symbol.body = some body → (analyze m.metadata symbol).1 = .ok analysis →
      RegionTable.resolve m.metadata body.regions = .ok regions →
      Prepares m symbol (.ok (.make symbol body analysis regions),
        { m.setPrepared symbol.handle (.make symbol body analysis regions) with lookups, metrics })

theorem prepare_prepares (m : Machine) (symbol : MethodSymbol) : Prepares m symbol (m.prepare symbol) := by
  unfold prepare
  cases hp : m.prepared? symbol.handle with
  | some p => exact .ready hp
  | none =>
    cases hb : symbol.body with
    | none => exact .refused _ m.lookups
    | some body =>
      dsimp only
      cases ha : (analyze m.metadata symbol).1 with
      | error e => exact .refused e _
      | ok analysis =>
        dsimp only
        cases hr : RegionTable.resolve m.metadata body.regions with
        | error e => exact .refused e _
        | ok regions => exact .made hp hb ha hr

namespace Prepares

variable {r : Except EngineError Prepared × Machine}

/-- No method that was ready is lost. -/
theorem evolves (h : m.Prepares symbol r) : m.Evolves r.2 := by
  cases h with
  | ready _ => exact .refl m
  | refused e lookups => exact SamePrograms.evolves ⟨rfl, rfl⟩
  | made hp _ _ _ =>
    refine .set rfl rfl fun q hq => ?_
    rw [hp] at hq
    cases hq

theorem sound (h : m.Prepares symbol r) (hm : m.Sound) : r.2.Sound := by
  cases h with
  | ready _ => exact hm
  | refused e lookups => exact SamePrograms.sound ⟨rfl, rfl⟩ hm
  | made _ hb ha hr => exact hm.set rfl rfl (Prepared.sound_make hb ha hr)

/-- A method that is ready afterwards was so before, or is the one that was made ready. -/
theorem ready_cases (h : m.Prepares symbol r) {k : MethodHandle} {p : Prepared} (hk : r.2.prepared? k = some p) :
    m.prepared? k = some p ∨
      (k = symbol.handle ∧ ∃ body analysis regions, p = .make symbol body analysis regions) := by
  cases h with
  | ready _ => exact .inl hk
  | refused e lookups => exact .inl hk
  | @made body analysis regions _ _ _ _ _ _ =>
    rw [prepared?, setPrepared, lookup_insertEntry] at hk
    by_cases he : k == symbol.handle
    · rw [if_pos he] at hk
      cases hk
      exact .inr ⟨eq_of_beq he, body, analysis, regions, rfl⟩
    · rw [if_neg he] at hk
      exact .inl hk

theorem prepared?_of_ok (h : m.Prepares symbol r) {p : Prepared} (hr : r.1 = .ok p) :
    r.2.prepared? symbol.handle = some p := by
  cases h with
  | ready hp =>
    cases hr
    exact hp
  | refused e lookups => cases hr
  | made _ _ _ _ =>
    cases hr
    rw [prepared?]
    exact (lookup_insertEntry ..).trans (if_pos (beq_self_eq_true _))

end Prepares

end Machine

end ManagedCode
