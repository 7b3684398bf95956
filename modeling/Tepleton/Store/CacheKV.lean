import Tepleton.Lib.Overlay
import Tepleton.Types.Fault

/-!
# Cache stores: `store/cachekvstore.go`

A `cacheKVStore` keeps what it has read, written and deleted in one map and forwards only misses,
and on `Write` the dirty entries, to the store below.  Such stores are stacked to any depth over a
bottom store, which is its content.

`Layers.contents` is what each layer of a stack stands for, the innermost first: the content of the
layer below with the dirty entries written over it.  On a coherent stack every operation of the
source acts on these contents as it would act on plain maps.  Keys are never `nil` here, so
`assertValidKey` does not fail, and `Set` gets a value that is not `nil`.
-/

namespace Tepleton.Store

open Lib

structure CValue where
  value : Option Bytes
  deleted : Bool
  dirty : Bool
  deriving DecidableEq, Repr

/-- A stack of `cacheKVStore`s over a bottom store. -/
inductive Layers
  | bottom (content : KVStore Bytes Bytes)
  | cacheKVStore (cache : KVStore Bytes CValue) (parent : Layers)

def newCacheKVStore (parent : Layers) : Layers := .cacheKVStore ∅ parent

def setCacheValue (cache : KVStore Bytes CValue) (key : Bytes) (value : Option Bytes)
    (deleted dirty : Bool) : KVStore Bytes CValue :=
  cache.insert key ⟨value, deleted, dirty⟩

namespace Layers

/-- `Get`.  A miss is remembered as a clean entry, also when there is nothing at the key. -/
def get : Layers → Bytes → Option Bytes × Layers
  | .bottom content, key => (content[key]?, .bottom content)
  | .cacheKVStore cache parent, key =>
    match cache[key]? with
    | none =>
      let (value, parent) := parent.get key
      (value, .cacheKVStore (setCacheValue cache key value false false) parent)
    | some cacheValue => (cacheValue.value, .cacheKVStore cache parent)

def set : Layers → Bytes → Bytes → Layers
  | .bottom content, key, value => .bottom (content.insert key value)
  | .cacheKVStore cache parent, key, value =>
    .cacheKVStore (setCacheValue cache key (some value) false true) parent

def has (l : Layers) (key : Bytes) : Bool × Layers :=
  let (value, l) := l.get key
  (value.isSome, l)

def delete : Layers → Bytes → Layers
  | .bottom content, key => .bottom (content.erase key)
  | .cacheKVStore cache parent, key =>
    .cacheKVStore (setCacheValue cache key none true true) parent

end Layers

/-- The dirty entries of a cache, upwards. -/
def dirtyEntries (cache : KVStore Bytes CValue) : List (Bytes × CValue) :=
  cache.toList.filter fun entry => entry.2.dirty

namespace Layers

/-- The body of the loop in `Write`. -/
def writeEntry (parent : Layers) (entry : Bytes × CValue) : Layers :=
  if entry.2.deleted then parent.delete entry.1
  else
    match entry.2.value with
    | none => parent
    | some value => parent.set entry.1 value

/-- `Write`.  The bottom store has none. -/
def write : Layers → Layers
  | .bottom content => .bottom content
  | .cacheKVStore cache parent =>
    .cacheKVStore ∅ ((dirtyEntries cache).foldl writeEntry parent)

end Layers

/-! ## What a stack stands for -/

/-- What a cache writes over the layer below. -/
def writes (cache : KVStore Bytes CValue) : List (Bytes × Option Bytes) :=
  (dirtyEntries cache).map fun entry => (entry.1, entry.2.value)

/-- An entry over a layer that has `beneath` at its key: a clean entry repeats it, and a dirty one
has no value exactly if it is a deletion. -/
def CValue.Fits (cacheValue : CValue) (beneath : Option Bytes) : Prop :=
  if cacheValue.dirty then cacheValue.deleted = cacheValue.value.isNone
  else cacheValue.value = beneath

namespace Layers

/-- The map that the innermost layer stands for. -/
def content : Layers → KVStore Bytes Bytes
  | .bottom content => content
  | .cacheKVStore cache parent => parent.content.overlay (writes cache)

/-- The maps that the layers below the innermost one stand for, from the inside to the bottom. -/
def underneath : Layers → List (KVStore Bytes Bytes)
  | .bottom _ => []
  | .cacheKVStore _ parent => parent.content :: parent.underneath

/-- Every entry of every cache fits the layer below it. -/
def Coherent : Layers → Prop
  | .bottom _ => True
  | .cacheKVStore cache parent =>
    (∀ (key : Bytes) (cacheValue : CValue), cache[key]? = some cacheValue →
      cacheValue.Fits parent.content[key]?) ∧ parent.Coherent

end Layers

theorem mem_dirtyEntries {cache : KVStore Bytes CValue} {key : Bytes} {cacheValue : CValue} :
    (key, cacheValue) ∈ dirtyEntries cache ↔ cache[key]? = some cacheValue ∧ cacheValue.dirty := by
  rw [dirtyEntries, List.mem_filter, KVStore.mem_toList]

theorem mem_writes {cache : KVStore Bytes CValue} {key : Bytes} {value : Option Bytes} :
    (key, value) ∈ writes cache ↔
      ∃ cacheValue, cache[key]? = some cacheValue ∧ cacheValue.dirty ∧ cacheValue.value = value := by
  rw [writes, List.mem_map]
  constructor
  · rintro ⟨⟨key', cacheValue⟩, hmem, heq⟩
    obtain ⟨rfl, rfl⟩ := Prod.mk.inj heq
    obtain ⟨hcache, hdirty⟩ := mem_dirtyEntries.mp hmem
    exact ⟨cacheValue, hcache, hdirty, rfl⟩
  · rintro ⟨cacheValue, hcache, hdirty, rfl⟩
    exact ⟨(key, cacheValue), mem_dirtyEntries.mpr ⟨hcache, hdirty⟩, rfl⟩

theorem writes_pairwise (cache : KVStore Bytes CValue) :
    (writes cache).Pairwise (OnKeys (· < ·)) := by
  rw [writes, List.pairwise_map]
  exact (KVStore.toList_pairwise cache).filter _

theorem writes_distinct (cache : KVStore Bytes CValue) :
    (writes cache).Pairwise fun a b => a.1 ≠ b.1 :=
  (writes_pairwise cache).imp fun hlt => ne_of_lt hlt

namespace Layers

variable {cache : KVStore Bytes CValue} {parent l : Layers} {key : Bytes}

theorem content_of_dirty {cacheValue : CValue} (h : cache[key]? = some cacheValue)
    (hdirty : cacheValue.dirty) : (cacheKVStore cache parent).content[key]? = cacheValue.value :=
  KVStore.getElem?_overlay_of_mem (writes_distinct cache)
    (mem_writes.mpr ⟨cacheValue, h, hdirty, rfl⟩)

theorem content_of_not_dirty (h : ∀ cacheValue, cache[key]? = some cacheValue → ¬ cacheValue.dirty) :
    (cacheKVStore cache parent).content[key]? = parent.content[key]? := by
  apply KVStore.getElem?_overlay_of_forall_ne
  rintro ⟨key', value⟩ hmem rfl
  obtain ⟨cacheValue, hcache, hdirty, -⟩ := mem_writes.mp hmem
  exact h cacheValue hcache hdirty

theorem content_congr {cache' : KVStore Bytes CValue} (h : cache'[key]? = cache[key]?) :
    (cacheKVStore cache' parent).content[key]? = (cacheKVStore cache parent).content[key]? := by
  by_cases hdirty : ∃ cacheValue, cache[key]? = some cacheValue ∧ cacheValue.dirty
  · obtain ⟨cacheValue, hcache, hdirty⟩ := hdirty
    rw [content_of_dirty hcache hdirty, content_of_dirty (h.trans hcache) hdirty]
  · rw [content_of_not_dirty, content_of_not_dirty]
    · exact fun cacheValue hcache hd => hdirty ⟨cacheValue, hcache, hd⟩
    · exact fun cacheValue hcache hd => hdirty ⟨cacheValue, h.symm.trans hcache, hd⟩

theorem content_parent_congr {parent' : Layers} (h : parent'.content = parent.content) :
    (cacheKVStore cache parent').content = (cacheKVStore cache parent).content := by
  rw [content, content, h]

theorem Coherent.content_eq {cacheValue : CValue} (hl : (cacheKVStore cache parent).Coherent)
    (h : cache[key]? = some cacheValue) :
    (cacheKVStore cache parent).content[key]? = cacheValue.value := by
  by_cases hdirty : cacheValue.dirty
  · exact content_of_dirty h hdirty
  · have hclean := hl.1 key cacheValue h
    rw [CValue.Fits, if_neg hdirty] at hclean
    rw [hclean]
    apply content_of_not_dirty
    intro other hother
    rw [h] at hother
    cases hother
    exact hdirty

theorem content_setCacheValue_dirty (value : Option Bytes) (deleted : Bool) :
    (cacheKVStore (setCacheValue cache key value deleted true) parent).content =
      (cacheKVStore cache parent).content.applyWrite (key, value) := by
  apply KVStore.ext
  intro key'
  rw [KVStore.getElem?_applyWrite]
  split
  · rename_i heq
    subst heq
    exact content_of_dirty (KVStore.getElem?_insert_self _ _ _) rfl
  · rename_i hne
    exact content_congr (KVStore.getElem?_insert_of_ne _ _ hne)

theorem content_setCacheValue_clean (hmiss : cache[key]? = none) (value : Option Bytes)
    (deleted : Bool) :
    (cacheKVStore (setCacheValue cache key value deleted false) parent).content =
      (cacheKVStore cache parent).content := by
  apply KVStore.ext
  intro key'
  by_cases heq : key = key'
  · subst heq
    rw [content_of_not_dirty, content_of_not_dirty]
    · simp [hmiss]
    · simp [setCacheValue]
  · exact content_congr (KVStore.getElem?_insert_of_ne _ _ heq)

/-! ## One operation -/

/-- The stacks stand for the same maps, and the second one is coherent. -/
structure SameView (l l' : Layers) : Prop where
  content : l'.content = l.content
  underneath : l'.underneath = l.underneath
  coherent : l'.Coherent

/-- What `Get` and `Has` answer, and that they change nothing. -/
theorem get_spec (hl : l.Coherent) (key : Bytes) :
    (l.get key).1 = l.content[key]? ∧ SameView l (l.get key).2 := by
  induction l with
  | bottom content => exact ⟨rfl, rfl, rfl, trivial⟩
  | cacheKVStore cache parent ih =>
    obtain ⟨hvalue, hview⟩ := ih hl.2
    cases hcache : cache[key]? with
    | some cacheValue =>
      have hget : (cacheKVStore cache parent).get key =
          (cacheValue.value, cacheKVStore cache parent) := by
        simp only [get, hcache]
      rw [hget]
      exact ⟨(hl.content_eq hcache).symm, rfl, rfl, hl⟩
    | none =>
      have hget : (cacheKVStore cache parent).get key = ((parent.get key).1,
          cacheKVStore (setCacheValue cache key (parent.get key).1 false false)
            (parent.get key).2) := by
        simp only [get, hcache]
      have hbelow : (cacheKVStore cache parent).content[key]? = parent.content[key]? :=
        content_of_not_dirty (by simp [hcache])
      rw [hget]
      refine ⟨hvalue.trans hbelow.symm, ?_, ?_, ?_, hview.coherent⟩
      · rw [content_parent_congr hview.content, content_setCacheValue_clean hcache]
      · rw [underneath, underneath, hview.content, hview.underneath]
      · intro key' cacheValue hentry
        rw [setCacheValue, KVStore.getElem?_insert] at hentry
        rw [hview.content]
        split at hentry
        · rename_i heq
          cases hentry
          rw [← heq]
          exact hvalue
        · exact hl.1 key' cacheValue hentry

/-- `Set` with a value and `Delete` without one. -/
def put (l : Layers) (key : Bytes) : Option Bytes → Layers
  | none => l.delete key
  | some value => l.set key value

theorem content_put (value : Option Bytes) :
    (l.put key value).content = l.content.applyWrite (key, value) := by
  cases l with
  | bottom content =>
    cases value with
    | none => rfl
    | some value => rfl
  | cacheKVStore cache parent =>
    cases value with
    | none => exact content_setCacheValue_dirty none true
    | some value => exact content_setCacheValue_dirty (some value) false

theorem underneath_put (value : Option Bytes) : (l.put key value).underneath = l.underneath := by
  cases l with
  | bottom content | cacheKVStore cache parent =>
    cases value with
    | none => rfl
    | some value => rfl

theorem Coherent.setCacheValue (hl : (cacheKVStore cache parent).Coherent) {value : Option Bytes}
    {deleted dirty : Bool} (hfits : (CValue.mk value deleted dirty).Fits parent.content[key]?) :
    (cacheKVStore (setCacheValue cache key value deleted dirty) parent).Coherent := by
  refine ⟨?_, hl.2⟩
  intro key' cacheValue hentry
  rw [Store.setCacheValue, KVStore.getElem?_insert] at hentry
  split at hentry
  · rename_i heq
    cases hentry
    rw [← heq]
    exact hfits
  · exact hl.1 key' cacheValue hentry

theorem Coherent.put (hl : l.Coherent) (value : Option Bytes) : (l.put key value).Coherent := by
  cases l with
  | bottom content =>
    cases value with
    | none => trivial
    | some value => trivial
  | cacheKVStore cache parent =>
    cases value with
    | none => exact hl.setCacheValue rfl
    | some value => exact hl.setCacheValue rfl

theorem writeEntry_eq_put {entry : Bytes × CValue}
    (hdeleted : entry.2.deleted = entry.2.value.isNone) :
    l.writeEntry entry = l.put entry.1 entry.2.value := by
  rw [writeEntry, hdeleted]
  cases entry.2.value with
  | none => rfl
  | some value => rfl

theorem foldl_writeEntry_spec {entries : List (Bytes × CValue)} (hl : l.Coherent)
    (hdeleted : ∀ entry ∈ entries, entry.2.deleted = entry.2.value.isNone) :
    (entries.foldl writeEntry l).content =
        l.content.overlay (entries.map fun entry => (entry.1, entry.2.value)) ∧
      (entries.foldl writeEntry l).underneath = l.underneath ∧
      (entries.foldl writeEntry l).Coherent := by
  induction entries generalizing l with
  | nil => exact ⟨rfl, rfl, hl⟩
  | cons entry entries ih =>
    have hentry := writeEntry_eq_put (l := l) (hdeleted entry (by simp))
    rw [List.foldl_cons, hentry]
    have hput : (l.put entry.1 entry.2.value).Coherent := hl.put entry.2.value
    obtain ⟨hcontent, hunder, hcoherent⟩ := ih hput
      fun e he => hdeleted e (List.mem_cons_of_mem _ he)
    exact ⟨by rw [hcontent, content_put]; rfl, by rw [hunder, underneath_put], hcoherent⟩

theorem write_spec (hl : (cacheKVStore cache parent).Coherent) :
    ∃ parent', (cacheKVStore cache parent).write = newCacheKVStore parent' ∧
      parent'.content = (cacheKVStore cache parent).content ∧
      parent'.underneath = parent.underneath ∧ parent'.Coherent := by
  refine ⟨_, rfl, foldl_writeEntry_spec hl.2 ?_⟩
  rintro ⟨key, cacheValue⟩ hmem
  obtain ⟨hcache, hdirty⟩ := mem_dirtyEntries.mp hmem
  have hfits := hl.1 key cacheValue hcache
  rwa [CValue.Fits, if_pos hdirty] at hfits

theorem content_newCacheKVStore : (newCacheKVStore l).content = l.content := by
  rw [newCacheKVStore, content, writes, dirtyEntries]
  have hnil : (∅ : KVStore Bytes CValue).toList = [] := Std.ExtTreeMap.toList_eq_nil_iff.mpr rfl
  rw [hnil]
  rfl

theorem Coherent.newCacheKVStore (hl : l.Coherent) : (newCacheKVStore l).Coherent :=
  ⟨fun key cacheValue hentry => by simp at hentry, hl⟩

/-! ## The bottom of a stack -/

/-- The number of caches. -/
def depth : Layers → ℕ
  | .bottom _ => 0
  | .cacheKVStore _ parent => parent.depth + 1

/-- The content of the bottom store. -/
def base : Layers → KVStore Bytes Bytes
  | .bottom content => content
  | .cacheKVStore _ parent => parent.base

/-- The innermost cache. -/
def top : Layers → KVStore Bytes CValue
  | .bottom _ => ∅
  | .cacheKVStore cache _ => cache

/-- The stack without its innermost cache. -/
def drop : Layers → Layers
  | .bottom content => .bottom content
  | .cacheKVStore _ parent => parent

/-- Over the same bottom store as before, and as many caches. -/
structure SameBase (l l' : Layers) : Prop where
  base : l'.base = l.base
  depth : l'.depth = l.depth

theorem SameBase.refl (l : Layers) : SameBase l l := ⟨rfl, rfl⟩

variable {l : Layers}

theorem SameBase.trans {l' l'' : Layers} (h : SameBase l l') (h' : SameBase l' l'') :
    SameBase l l'' :=
  ⟨h'.base.trans h.base, h'.depth.trans h.depth⟩

theorem get_sameBase (l : Layers) (key : Bytes) : SameBase l (l.get key).2 := by
  induction l with
  | bottom content => exact .refl _
  | cacheKVStore cache parent ih =>
    rw [get]
    split
    · exact ⟨ih.base, congrArg (· + 1) ih.depth⟩
    · exact .refl _

theorem set_sameBase (h : 0 < l.depth) (key value : Bytes) : SameBase l (l.set key value) := by
  cases l with
  | bottom content => cases h
  | cacheKVStore cache parent => exact ⟨rfl, rfl⟩

theorem delete_sameBase (h : 0 < l.depth) (key : Bytes) : SameBase l (l.delete key) := by
  cases l with
  | bottom content => cases h
  | cacheKVStore cache parent => exact ⟨rfl, rfl⟩

theorem writeEntry_sameBase (h : 0 < l.depth) (entry : Bytes × CValue) :
    SameBase l (l.writeEntry entry) := by
  rw [writeEntry]
  split_ifs
  · exact delete_sameBase h _
  · split
    · exact .refl l
    · exact set_sameBase h _ _

theorem write_sameBase (h : 1 < l.depth) : SameBase l l.write := by
  cases l with
  | bottom content => cases h
  | cacheKVStore cache parent =>
    have hparent : 0 < parent.depth := Nat.lt_of_succ_lt_succ h
    have hfold : ∀ entries : List (Bytes × CValue),
        SameBase parent (entries.foldl writeEntry parent) := by
      intro entries
      induction entries using List.reverseRecOn with
      | nil => exact .refl parent
      | append_singleton entries entry ih =>
        rw [List.foldl_append, List.foldl_cons, List.foldl_nil]
        exact ih.trans (writeEntry_sameBase (ih.depth ▸ hparent) entry)
    have hwritten := hfold (dirtyEntries cache)
    exact ⟨hwritten.base, congrArg (· + 1) hwritten.depth⟩

end Layers

/-! ## Sequences of operations -/

/-- A call on the innermost store. -/
inductive Op
  | get (key : Bytes)
  | has (key : Bytes)
  | set (key value : Bytes)
  | delete (key : Bytes)
  | write
  deriving DecidableEq, Repr

/-- What a call returns. -/
inductive Response
  | value (value : Option Bytes)
  | found (found : Bool)
  | done
  deriving DecidableEq, Repr

/-- A call on the innermost store of a stack. -/
def Layers.exec (l : Layers) : Op → Response × Layers
  | .get key => let (value, l) := l.get key; (.value value, l)
  | .has key => let (found, l) := l.has key; (.found found, l)
  | .set key value => (.done, l.set key value)
  | .delete key => (.done, l.delete key)
  | .write => (.done, l.write)

/-- The same call on a plain map. -/
def plainExec (content : KVStore Bytes Bytes) : Op → Response × KVStore Bytes Bytes
  | .get key => (.value content[key]?, content)
  | .has key => (.found content[key]?.isSome, content)
  | .set key value => (.done, content.insert key value)
  | .delete key => (.done, content.erase key)
  | .write => (.done, content)

/-- Some calls, one after the other. -/
def runOps {σ : Type} (exec : σ → Op → Response × σ) (s : σ) : List Op → List Response × σ
  | [] => ([], s)
  | op :: ops =>
    let (response, s) := exec s op
    let (responses, s) := runOps exec s ops
    (response :: responses, s)

namespace Layers

variable {cache : KVStore Bytes CValue} {parent l : Layers}

theorem exec_spec (hl : l.Coherent) (op : Op) :
    (l.exec op).1 = (plainExec l.content op).1 ∧
      (l.exec op).2.content = (plainExec l.content op).2 ∧ (l.exec op).2.Coherent := by
  cases op with
  | get key =>
    obtain ⟨hvalue, hview⟩ := get_spec hl key
    exact ⟨congrArg Response.value hvalue, hview.content, hview.coherent⟩
  | has key =>
    obtain ⟨hvalue, hview⟩ := get_spec hl key
    exact ⟨congrArg (fun value => Response.found (Option.isSome value)) hvalue, hview.content,
      hview.coherent⟩
  | set key value => exact ⟨rfl, content_put (some value), hl.put (some value)⟩
  | delete key => exact ⟨rfl, content_put none, hl.put none⟩
  | write =>
    cases l with
    | bottom content => exact ⟨rfl, rfl, trivial⟩
    | cacheKVStore cache parent =>
      obtain ⟨parent', hwrite, hcontent, -, hcoherent⟩ := write_spec hl
      refine ⟨rfl, ?_, ?_⟩
      · rw [exec, hwrite, content_newCacheKVStore, hcontent]
        rfl
      · rw [exec, hwrite]
        exact hcoherent.newCacheKVStore

theorem exec_underneath (hl : l.Coherent) {op : Op} (hop : op ≠ .write) :
    (l.exec op).2.underneath = l.underneath := by
  cases op with
  | get key | has key => exact (get_spec hl key).2.underneath
  | set key value => exact underneath_put (some value)
  | delete key => exact underneath_put none
  | write => exact absurd rfl hop

theorem run_spec (hl : l.Coherent) (ops : List Op) :
    (runOps exec l ops).1 = (runOps plainExec l.content ops).1 ∧
      (runOps exec l ops).2.content = (runOps plainExec l.content ops).2 ∧
      (runOps exec l ops).2.Coherent := by
  induction ops generalizing l with
  | nil => exact ⟨rfl, rfl, hl⟩
  | cons op ops ih =>
    obtain ⟨hresponse, hcontent, hcoherent⟩ := exec_spec hl op
    obtain ⟨hresponses, hrest⟩ := ih hcoherent
    rw [hcontent] at hresponses hrest
    exact ⟨congrArg₂ List.cons hresponse hresponses, hrest⟩

theorem run_underneath (hl : l.Coherent) {ops : List Op} (hops : Op.write ∉ ops) :
    (runOps exec l ops).2.underneath = l.underneath := by
  induction ops generalizing l with
  | nil => rfl
  | cons op ops ih =>
    have hop : op ≠ .write := fun heq => hops (by simp [heq])
    have hrest := ih (exec_spec hl op).2.2 fun hmem => hops (List.mem_cons_of_mem _ hmem)
    exact hrest.trans (exec_underneath hl hop)

theorem exec_depth (hl : l.Coherent) (op : Op) :
    (l.exec op).2.underneath.length = l.underneath.length := by
  by_cases hop : op = .write
  · subst hop
    cases l with
    | bottom content => rfl
    | cacheKVStore cache parent =>
      obtain ⟨parent', hwrite, -, hunder, -⟩ := write_spec hl
      rw [exec, hwrite, newCacheKVStore, underneath, underneath, hunder]
      rfl
  · rw [exec_underneath hl hop]

theorem run_depth (hl : l.Coherent) (ops : List Op) :
    (runOps exec l ops).2.underneath.length = l.underneath.length := by
  induction ops generalizing l with
  | nil => rfl
  | cons op ops ih => exact (ih (exec_spec hl op).2.2).trans (exec_depth hl op)

theorem run_cacheKVStore (hl : (cacheKVStore cache parent).Coherent) (ops : List Op) :
    ∃ cache' parent', (runOps exec (cacheKVStore cache parent) ops).2 =
      cacheKVStore cache' parent' := by
  have hdepth := run_depth hl ops
  cases hend : (runOps exec (cacheKVStore cache parent) ops).2 with
  | bottom content =>
    rw [hend] at hdepth
    cases hdepth
  | cacheKVStore cache' parent' => exact ⟨cache', parent', rfl⟩

end Layers

/-- The stacks that calls lead to: caches are put on top and dropped again, and every call goes to
the innermost store. -/
inductive Built : Layers → Prop
  | bottom (content : KVStore Bytes Bytes) : Built (.bottom content)
  | wrap {l : Layers} : Built l → Built (newCacheKVStore l)
  | exec {l : Layers} (op : Op) : Built l → Built (l.exec op).2
  | drop {cache : KVStore Bytes CValue} {parent : Layers} :
      Built (.cacheKVStore cache parent) → Built parent

theorem Built.coherent {l : Layers} (h : Built l) : l.Coherent := by
  induction h with
  | bottom content => trivial
  | wrap _ ih => exact ih.newCacheKVStore
  | exec op _ ih => exact (Layers.exec_spec ih op).2.2
  | drop _ ih => exact ih.2

/-- A cache is an overlay.  Any calls on the innermost cache are answered as by a plain map and leave
the view that this map has.  Without `Write`, no layer below has changed, and once the cache is
dropped the layer below answers every later call as it would have.  `Write` makes the layer directly
below equal to the view, keeps the view, and changes no other layer. -/
theorem cacheKVStore_is_overlay {cache : KVStore Bytes CValue} {parent : Layers}
    (hbuilt : Built (.cacheKVStore cache parent)) (ops : List Op) :
    let plain := runOps plainExec (Layers.cacheKVStore cache parent).content ops
    ∃ cache' parent',
      runOps Layers.exec (.cacheKVStore cache parent) ops = (plain.1, .cacheKVStore cache' parent') ∧
      (Layers.cacheKVStore cache' parent').content = plain.2 ∧
      (Op.write ∉ ops → parent'.content = parent.content ∧ parent'.underneath = parent.underneath ∧
        ∀ later, (runOps Layers.exec parent' later).1 = (runOps Layers.exec parent later).1) ∧
      ∃ written, (Layers.cacheKVStore cache' parent').write = newCacheKVStore written ∧
        written.content = plain.2 ∧ (newCacheKVStore written).content = plain.2 ∧
        written.underneath = parent'.underneath := by
  intro plain
  have hl := hbuilt.coherent
  obtain ⟨cache', parent', hend⟩ := Layers.run_cacheKVStore hl ops
  obtain ⟨hresponses, hcontent, hcoherent⟩ := Layers.run_spec hl ops
  rw [hend] at hcontent hcoherent
  refine ⟨cache', parent', Prod.ext hresponses hend, hcontent, ?_, ?_⟩
  · intro hops
    have hunder := Layers.run_underneath hl hops
    rw [hend] at hunder
    obtain ⟨hparent, hdeeper⟩ := List.cons.inj hunder
    refine ⟨hparent, hdeeper, fun later => ?_⟩
    rw [(Layers.run_spec hcoherent.2 later).1, (Layers.run_spec hl.2 later).1, hparent]
  · obtain ⟨written, hwrite, hwritten, hdeeper, -⟩ := Layers.write_spec hcoherent
    refine ⟨written, hwrite, hwritten.trans hcontent, ?_, hdeeper⟩
    rw [Layers.content_newCacheKVStore, hwritten, hcontent]

/-- Two caches over a store with one key: the inner one deletes it and the deletion is seen. -/
theorem cacheKVStore_is_overlay_nested :
    let bottom := Layers.bottom ((∅ : KVStore Bytes Bytes).insert [1] [2])
    let ops := [Op.get [1], .delete [1], .has [1]]
    (runOps Layers.exec (newCacheKVStore (newCacheKVStore bottom)) ops).1 =
      [.value (some [2]), .done, .found false] := by
  intro bottom ops
  have hplain : (runOps plainExec (newCacheKVStore (newCacheKVStore bottom)).content ops).1 =
      [.value (some [2]), .done, .found false] := by decide +kernel
  obtain ⟨cache', parent', hrun, -⟩ := cacheKVStore_is_overlay (.wrap (.wrap (.bottom _))) ops
  exact (congrArg Prod.fst hrun).trans hplain

end Tepleton.Store
