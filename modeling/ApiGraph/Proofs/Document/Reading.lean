import ApiGraph.Location
import ApiGraph.Proofs.Document.Graph
import ApiGraph.Proofs.Ensures

namespace ApiGraph

open Store

namespace Json

variable {α β : Type} {s₀ : Store}

section Silent

-- Reading without making a container.
def Silent (x : Reader α) : Prop := ∀ i, Gives x i fun _ i' => i'.store = i.store

theorem silent_pure (a : α) : Silent (pure a : Reader α) := fun _ => gives_pure.mpr rfl

theorem silent_throw (e : Failure Error) : Silent (throw e : Reader α) := fun _ => gives_throw

theorem Silent.bind {x : Reader α} {f : α → Reader β} (hx : Silent x) (hf : ∀ a, Silent (f a)) :
    Silent (x >>= f) := by
  intro i
  rw [gives_bind]
  exact (hx i).mono fun a j hj => (hf a j).mono fun _ _ h => h.trans hj

theorem silent_get : Silent (get : Reader Input) := fun _ => gives_get.mpr rfl

theorem silent_complain (c : Complaint) (position : Nat) : Silent (complain c position : Reader α) :=
  silent_throw _

theorem silent_complainHere (c : Complaint) : Silent (complainHere c : Reader α) :=
  silent_get.bind fun _ => silent_complain _ _

theorem silent_advance (n : Nat) : Silent (advance n) := fun _ => gives_modify.mpr rfl

theorem silent_skipSpace : Silent skipSpace := silent_get.bind fun _ => silent_advance _

theorem silent_peek? : Silent peek? := silent_get.bind fun _ => silent_pure _

theorem silent_string : Silent string := by
  intro i
  unfold string
  rw [gives_bind, gives_get]
  split
  · exact gives_throw
  · rw [gives_bind, gives_set]
    exact gives_pure.mpr rfl

theorem silent_isLast (close : Char) : Silent (isLast close) := by
  refine silent_peek?.bind fun next => ?_
  have hnext : Silent (do advance 1; skipSpace; return false : Reader Bool) :=
    (silent_advance _).bind fun _ => silent_skipSpace.bind fun _ => silent_pure _
  split
  · exact (silent_advance _).bind fun _ => silent_pure _
  · split
    · exact (silent_complainHere _).bind fun _ => hnext
    · exact hnext

end Silent

section Adding

-- Reading adds new containers, and what is returned is as in `V`.
def Adds (s₀ : Store) (x : Reader α) (i : Input) (V : Store → α → Prop) : Prop :=
  Gives x i fun a i' => s₀.Extends i'.store ∧ i.store.nodes.size ≤ i'.store.nodes.size ∧
    V i'.store a

variable {V : Store → α → Prop} {W : Store → β → Prop} {i : Input}

theorem Adds.bind {x : Reader α} {f : α → Reader β} (hx : Adds s₀ x i V)
    (hf : ∀ a i', s₀.Extends i'.store → i.store.nodes.size ≤ i'.store.nodes.size →
      V i'.store a → Adds s₀ (f a) i' W) : Adds s₀ (x >>= f) i W := by
  unfold Adds at hx ⊢
  rw [gives_bind]
  refine hx.mono fun a j hj => ?_
  obtain ⟨hext, hle, ha⟩ := hj
  exact (hf a j hext hle ha).mono fun b k hk => ⟨hk.1, Nat.le_trans hle hk.2.1, hk.2.2⟩

theorem Silent.adds (h : s₀.Extends i.store) {x : Reader α} (hx : Silent x) :
    Adds s₀ x i fun s _ => s = i.store :=
  (hx i).mono fun _ j hj => ⟨hj ▸ h, Nat.le_of_eq (by rw [hj]), hj⟩

-- A silent step first changes nothing for what follows.
theorem Silent.then {x : Reader α} {f : α → Reader β} (hx : Silent x) (h : s₀.Extends i.store)
    (hf : ∀ a i', i'.store = i.store → s₀.Extends i'.store → Adds s₀ (f a) i' W) :
    Adds s₀ (x >>= f) i W :=
  (hx.adds h).bind fun a j hext _ hj => hf a j hj hext

theorem adds_pure {a : α} (h : s₀.Extends i.store) (ha : V i.store a) :
    Adds s₀ (pure a) i V :=
  gives_pure.mpr ⟨h, Nat.le_refl _, ha⟩

theorem adds_of_throw {e : Failure Error} : Adds s₀ (throw e : Reader α) i V := gives_throw

theorem adds_complainHere {c : Complaint} : Adds s₀ (complainHere c : Reader α) i V := by
  unfold Adds complainHere
  rw [gives_bind, gives_get]
  exact gives_throw

theorem adds_complainHere_bind {c : Complaint} {f : α → Reader β} :
    Adds s₀ (complainHere c >>= f) i W :=
  Adds.bind (V := fun _ _ => False) adds_complainHere fun _ _ _ _ h => h.elim

theorem adds_alloc {c : Container} (h : s₀.Extends i.store)
    (hc : ∀ v ∈ c.children, s₀.IsNew i.store v) :
    Adds s₀ (alloc c) i fun s v => s₀.IsNew s v :=
  gives_modifyGet.mpr ⟨h.alloc hc, by simp [Store.size_alloc], isNew_alloc h⟩

theorem adds_scalar {x : Scalar} (h : s₀.Extends i.store) :
    Adds s₀ (pure (.scalar x)) i fun s v => s₀.IsNew s v :=
  adds_pure h (isNew_scalar x)

theorem adds_number (h : s₀.Extends i.store) :
    Adds s₀ number i fun s v => s₀.IsNew s v := by
  refine silent_get.then h fun _ i hi h => ?_
  split
  · exact adds_complainHere
  · refine (silent_advance _).then h fun _ i hi h => ?_
    split
    · split
      · exact adds_scalar h
      · exact adds_of_throw
    · split
      · exact adds_scalar h
      · exact adds_of_throw

theorem adds_atom (h : s₀.Extends i.store) : Adds s₀ atom i fun s v => s₀.IsNew s v := by
  refine silent_get.then h fun _ i hi h => ?_
  dsimp only
  split
  · exact (silent_advance _).then h fun _ i hi h => adds_scalar h
  · exact adds_number h

theorem adds_str (h : s₀.Extends i.store) :
    Adds s₀ (do return .str (← string)) i fun s v => s₀.IsNew s v :=
  silent_string.then h fun _ _ _ h => adds_scalar h

section Containers

variable {item : Reader Value}
  (hitem : ∀ i, s₀.Extends i.store → Adds s₀ item i fun s v => s₀.IsNew s v)
include hitem

theorem adds_items {bound : Nat} {acc : List Value} (h : s₀.Extends i.store)
    (hacc : ∀ v ∈ acc, s₀.IsNew i.store v) :
    Adds s₀ (items item bound acc) i fun s l => ∀ v ∈ l, s₀.IsNew s v := by
  induction bound generalizing i acc with
  | zero => exact adds_complainHere
  | succ bound ih =>
      unfold items
      refine (hitem i h).bind fun v j h hle hv => ?_
      have hall : ∀ w ∈ v :: acc, s₀.IsNew j.store w := by
        intro w hw
        rcases List.mem_cons.mp hw with rfl | hw
        · exact hv
        · exact (hacc w hw).mono hle
      refine silent_skipSpace.then h fun _ k hk h => ?_
      rw [← hk] at hall
      refine (silent_isLast _).then h fun last l hl h => ?_
      rw [← hl] at hall
      split
      · exact adds_pure h fun w hw => hall w (List.mem_reverse.mp hw)
      · exact ih h hall

theorem adds_memberValue (h : s₀.Extends i.store) :
    Adds s₀ (memberValue item) i fun s v => s₀.IsNew s v := by
  have hvalue {j : Input} (h : s₀.Extends j.store) :
      Adds s₀ (do advance 1; skipSpace; item) j fun s v => s₀.IsNew s v :=
    (silent_advance _).then h fun _ _ _ h => silent_skipSpace.then h fun _ _ _ h => hitem _ h
  unfold memberValue
  refine silent_skipSpace.then h fun _ _ _ h => ?_
  refine silent_peek?.then h fun colon _ _ h => ?_
  split
  · exact adds_complainHere_bind
  · exact hvalue h

theorem adds_members {bound : Nat} {acc : Entries} (h : s₀.Extends i.store)
    (hacc : ∀ v ∈ acc.values, s₀.IsNew i.store v) :
    Adds s₀ (members item bound acc) i fun s m => ∀ v ∈ m.values, s₀.IsNew s v := by
  induction bound generalizing i acc with
  | zero => exact adds_complainHere
  | succ bound ih =>
      unfold members
      refine silent_peek?.then h fun first j hj h => ?_
      rw [← hj] at hacc
      split
      · exact adds_complainHere_bind
      · refine silent_string.then h fun key k hk h => ?_
        rw [← hk] at hacc
        refine (adds_memberValue hitem h).bind fun v l h hle hv => ?_
        have hall : ∀ w ∈ (acc.insert (.str key) v).values, s₀.IsNew l.store w := by
          intro w hw
          rcases OrderedMap.mem_values_insert hw with rfl | hw
          · exact hv
          · exact (hacc w hw).mono hle
        refine silent_skipSpace.then h fun _ m hm h => ?_
        rw [← hm] at hall
        refine (silent_isLast _).then h fun last n hn h => ?_
        rw [← hn] at hall
        split
        · exact adds_pure h hall
        · exact ih h hall

end Containers

theorem adds_value {bound allowance : Nat} (h : s₀.Extends i.store) :
    Adds s₀ (value bound allowance) i fun s v => s₀.IsNew s v := by
  induction allowance generalizing i with
  | zero =>
      unfold value
      refine silent_peek?.then h fun next i _ h => ?_
      split
      · exact adds_of_throw
      · exact adds_of_throw
      · exact adds_str h
      · exact adds_atom h
      · exact adds_complainHere
  | succ allowance ih =>
      have hitem := fun (i : Input) (h : s₀.Extends i.store) => ih h
      unfold value
      refine silent_peek?.then h fun next i _ h => ?_
      split
      · refine (silent_advance _).then h fun _ i _ h => ?_
        refine silent_skipSpace.then h fun _ i _ h => ?_
        refine silent_peek?.then h fun next i _ h => ?_
        split
        · refine (silent_advance _).then h fun _ i _ h => ?_
          exact adds_alloc h fun v hv => by cases hv
        · refine (adds_items hitem h fun v hv => by cases hv).bind fun l i h _ hl => ?_
          exact adds_alloc h hl
      · refine (silent_advance _).then h fun _ i _ h => ?_
        refine silent_skipSpace.then h fun _ i _ h => ?_
        refine silent_peek?.then h fun next i _ h => ?_
        split
        · refine (silent_advance _).then h fun _ i _ h => ?_
          exact adds_alloc h fun v hv => by cases hv
        · refine (adds_members hitem h fun v hv => by cases hv).bind fun m i h _ hm => ?_
          exact adds_alloc h hm
      · exact adds_str h
      · exact adds_atom h
      · exact adds_complainHere

theorem adds_document {allowance : Nat} (h : s₀.Extends i.store) :
    Adds s₀ (document allowance) i fun s v => s₀.IsNew s v := by
  have rest {i : Input} (h : s₀.Extends i.store) : Adds s₀ (do
      skipSpace
      let v ← value ((← get).rest.length + 1) allowance
      skipSpace
      if (← peek?).isSome then complainHere .trailingText
      return v) i fun s v => s₀.IsNew s v := by
    refine silent_skipSpace.then h fun _ i _ h => ?_
    refine silent_get.then h fun _ i _ h => ?_
    refine (adds_value h).bind fun v i h _ hv => ?_
    refine silent_skipSpace.then h fun _ j hj h => ?_
    rw [← hj] at hv
    refine silent_peek?.then h fun next j hj h => ?_
    rw [← hj] at hv
    split
    · exact adds_complainHere_bind
    · exact adds_pure h hv
  unfold document
  refine silent_peek?.then h fun next i _ h => ?_
  split
  · exact adds_complainHere_bind
  · exact rest h

end Adding

theorem extends_read {allowance : Nat} {source : List Char} {v : Value} {s : Store}
    (h : read allowance source s₀ = .ok (v, s)) : s₀.Extends s ∧ s₀.IsNew s v := by
  unfold read at h
  cases hrun : (document allowance).run ⟨source, 0, s₀⟩ with
  | error e =>
      rw [hrun] at h
      cases h
  | ok r =>
      rw [hrun] at h
      cases h
      obtain ⟨hext, -, hnew⟩ := adds_document (i := ⟨source, 0, s₀⟩) (.refl s₀) _ _ hrun
      exact ⟨hext, hnew⟩

end Json

namespace Yaml

namespace Build

variable {α β : Type} {s₀ : Store}

section Keeps

-- Only the node graph may change.
def Keeps (x : Build α) : Prop :=
  ∀ b, Gives x b fun _ b' => b'.store = b.store ∧ b'.values = b.values ∧ b'.queue = b.queue

theorem keeps_pure (a : α) : Keeps (pure a : Build α) :=
  fun _ => gives_pure.mpr ⟨rfl, rfl, rfl⟩

theorem keeps_throw (e : Problem) : Keeps (throw e : Build α) := fun _ => gives_throw

theorem keeps_get : Keeps (get : Build Building) := fun _ => gives_get.mpr ⟨rfl, rfl, rfl⟩

theorem Keeps.bind {x : Build α} {f : α → Build β} (hx : Keeps x) (hf : ∀ a, Keeps (f a)) :
    Keeps (x >>= f) := by
  intro b
  rw [gives_bind]
  refine (hx b).mono fun a b' hb => ?_
  obtain ⟨hs, hv, hq⟩ := hb
  exact (hf a b').mono fun _ _ h => ⟨h.1.trans hs, h.2.1.trans hv, h.2.2.trans hq⟩

theorem keeps_nodeAt (id : Nat) : Keeps (nodeAt id) := by
  refine keeps_get.bind fun b => ?_
  split
  · exact keeps_pure _
  · exact keeps_throw _

theorem keeps_setContent (id : Nat) (content : Content) : Keeps (setContent id content) :=
  fun _ => gives_modify.mpr ⟨rfl, rfl, rfl⟩

theorem keeps_setTag (id : Nat) (tag : Tag) : Keeps (setTag id tag) :=
  fun _ => gives_modify.mpr ⟨rfl, rfl, rfl⟩

theorem keeps_scalarText (allowance id : Nat) : Keeps (scalarText allowance id) := by
  induction allowance generalizing id with
  | zero => exact keeps_throw _
  | succ allowance ih =>
      unfold scalarText
      refine (keeps_nodeAt id).bind fun n => ?_
      split
      · exact keeps_pure _
      · exact keeps_throw _
      · refine keeps_get.bind fun b => ?_
        dsimp only
        split
        · exact ih _
        · exact keeps_throw _

theorem keeps_mappingEntries (id : Nat) : Keeps (mappingEntries id) := by
  refine (keeps_nodeAt id).bind fun n => ?_
  split
  · exact keeps_pure _
  · exact keeps_throw _

theorem keeps_sequenceItems (id : Nat) : Keeps (sequenceItems id) := by
  refine (keeps_nodeAt id).bind fun n => ?_
  split
  · exact keeps_pure _
  · exact keeps_throw _

theorem keeps_mapM {f : β → Build α} (hf : ∀ a, Keeps (f a)) (l : List β) : Keeps (l.mapM f) := by
  induction l with
  | nil =>
      rw [List.mapM_nil]
      exact keeps_pure _
  | cons a rest ih =>
      rw [List.mapM_cons]
      exact (hf a).bind fun _ => ih.bind fun _ => keeps_pure _

theorem keeps_collectMerges {flatten : Nat → Build Unit} (hf : ∀ id, Keeps (flatten id))
    (id bound place : Nat) : Keeps (collectMerges flatten id bound place) := by
  induction bound generalizing place with
  | zero => exact keeps_throw _
  | succ bound ih =>
      unfold collectMerges
      refine (keeps_mappingEntries id).bind fun entries => ?_
      split
      · exact keeps_pure _
      · refine (keeps_nodeAt _).bind fun key => ?_
        split
        · refine (keeps_setContent _ _).bind fun _ => ?_
          refine (keeps_nodeAt _).bind fun source => ?_
          have rest (merged : List (Nat × Nat)) : Keeps (do
              return merged ++ (← collectMerges flatten id bound place)) :=
            (ih place).bind fun _ => keeps_pure _
          split
          · refine (hf _).bind fun _ => (keeps_mappingEntries _).bind fun merged => ?_
            exact rest merged
          · refine Keeps.bind (keeps_mapM (fun item => ?_) _) fun parts => ?_
            · refine Keeps.bind ?_ fun _ => (hf _).bind fun _ => keeps_mappingEntries _
              exact (keeps_mappingEntries _).bind fun _ => keeps_pure _
            · exact rest _
          · exact (keeps_throw _).bind fun merged => rest merged
        · exact (keeps_setTag _ _).bind fun _ => ih _
        · exact ih _

theorem keeps_flatten (allowance id : Nat) : Keeps (flatten allowance id) := by
  induction allowance generalizing id with
  | zero => exact keeps_throw _
  | succ allowance ih =>
      unfold flatten
      refine (keeps_collectMerges ih id _ 0).bind fun merged => ?_
      split
      · exact keeps_pure _
      · exact (keeps_mappingEntries id).bind fun own => keeps_setContent _ _

end Keeps

section Building

-- All that a document is built from so far is new.
structure Sound (s₀ : Store) (b : Building) : Prop where
  store : s₀.Extends b.store
  values : ∀ (id : Nat) v, b.values[id]? = some (some v) → s₀.IsNew b.store v
  queue : ∀ t ∈ b.queue, s₀.nodes.size ≤ t.target

def Builds (s₀ : Store) (x : Build α) (b : Building) (V : Store → α → Prop) : Prop :=
  Gives x b fun a b' => Sound s₀ b' ∧ b.store.nodes.size ≤ b'.store.nodes.size ∧ V b'.store a

variable {V : Store → α → Prop} {W : Store → β → Prop} {b : Building}

theorem Builds.bind {x : Build α} {f : α → Build β} (hx : Builds s₀ x b V)
    (hf : ∀ a b', Sound s₀ b' → b.store.nodes.size ≤ b'.store.nodes.size → V b'.store a →
      Builds s₀ (f a) b' W) : Builds s₀ (x >>= f) b W := by
  unfold Builds at hx ⊢
  rw [gives_bind]
  refine hx.mono fun a c hc => ?_
  obtain ⟨hs, hle, ha⟩ := hc
  exact (hf a c hs hle ha).mono fun _ d hd => ⟨hd.1, Nat.le_trans hle hd.2.1, hd.2.2⟩

theorem Keeps.then {x : Build α} {f : α → Build β} (hx : Keeps x) (h : Sound s₀ b)
    (hf : ∀ a b', b'.store = b.store → Sound s₀ b' → Builds s₀ (f a) b' W) :
    Builds s₀ (x >>= f) b W := by
  unfold Builds
  rw [gives_bind]
  refine (hx b).mono fun a c hc => ?_
  obtain ⟨hs, hv, hq⟩ := hc
  have hsound : Sound s₀ c := ⟨hs ▸ h.store, by rw [hv, hs]; exact h.values, hq ▸ h.queue⟩
  exact (hf a c hs hsound).mono fun _ d hd => ⟨hd.1, hs ▸ hd.2.1, hd.2.2⟩

theorem builds_pure {a : α} (h : Sound s₀ b) (ha : V b.store a) : Builds s₀ (pure a) b V :=
  gives_pure.mpr ⟨h, Nat.le_refl _, ha⟩

theorem builds_throw {e : Problem} : Builds s₀ (throw e : Build α) b V := gives_throw

theorem builds_enqueue {node : Nat} {filling : Filling} {start : Container} (h : Sound s₀ b)
    (hstart : start.children = []) :
    Builds s₀ (enqueue node filling start) b fun s v => s₀.IsNew s v := by
  have hsize : b.store.nodes.size ≤ (b.store.alloc start).2.nodes.size := by
    rw [Store.size_alloc]
    exact Nat.le_succ _
  unfold Builds enqueue
  rw [gives_bind, gives_get]
  simp only [gives_bind, gives_set, gives_pure]
  refine ⟨⟨h.store.alloc fun v hv => ?_, fun id v hv => ?_, fun t ht => ?_⟩, hsize,
    isNew_alloc h.store⟩
  · rw [hstart] at hv
    cases hv
  · exact (h.values id v hv).mono hsize
  · rcases List.mem_cons.mp ht with rfl | ht
    · exact h.store.size
    · exact h.queue t ht

theorem builds_freshValue {id : Nat} (h : Sound s₀ b) :
    Builds s₀ (freshValue id) b fun s v => s₀.IsNew s v := by
  have ofText {f : List Char → Except Problem Scalar} {b : Building} (h : Sound s₀ b) :
      Builds s₀ (do
        let s ← f (← scalarText nestingAllowance id)
        return Value.scalar s) b fun s v => s₀.IsNew s v := by
    refine (keeps_scalarText _ _).then h fun text b _ h => ?_
    cases hf : f text with
    | error e => exact builds_throw
    | ok x => exact builds_pure h (isNew_scalar x)
  unfold freshValue
  refine (keeps_nodeAt id).then h fun n b _ h => ?_
  dsimp only
  split
  case h_7 =>
    refine (keeps_scalarText _ _).then h fun text b _ h => ?_
    split
    · exact ofText h
    · exact builds_throw
  case h_8 | h_9 | h_10 | h_11 | h_12 => exact builds_enqueue h rfl
  case h_13 | h_14 | h_15 => exact builds_throw
  all_goals exact ofText h

theorem builds_valueOf {id : Nat} (h : Sound s₀ b) :
    Builds s₀ (valueOf id) b fun s v => s₀.IsNew s v := by
  unfold valueOf Builds
  rw [gives_bind, gives_get]
  split
  next v hv =>
    refine builds_pure h (h.values id v ?_)
    simpa [Option.join_eq_some_iff] using hv
  next =>
    refine (builds_freshValue h).bind fun v b h _ hv => ?_
    unfold Builds
    rw [gives_bind, gives_modify, gives_pure]
    refine ⟨⟨h.store, fun id' v' hv' => ?_, h.queue⟩, Nat.le_refl _, hv⟩
    rw [Array.getElem?_setIfInBounds] at hv'
    split at hv'
    · split at hv'
      · cases hv'
        exact hv
      · cases hv'
    · exact h.values id' v' hv'

theorem builds_mapM {f : β → Build Value}
    (hf : ∀ a b, Sound s₀ b → Builds s₀ (f a) b fun s v => s₀.IsNew s v) {l : List β}
    (h : Sound s₀ b) : Builds s₀ (l.mapM f) b fun s vs => ∀ v ∈ vs, s₀.IsNew s v := by
  induction l generalizing b with
  | nil =>
      rw [List.mapM_nil]
      exact builds_pure h fun v hv => by cases hv
  | cons a rest ih =>
      rw [List.mapM_cons]
      refine (hf a b h).bind fun v c h _ hv => ?_
      refine (ih h).bind fun vs d h hle hvs => ?_
      refine builds_pure h fun w hw => ?_
      rcases List.mem_cons.mp hw with rfl | hw
      · exact hv.mono hle
      · exact hvs w hw

theorem builds_entriesOf {l : List (Nat × Nat)} {acc : Entries} (h : Sound s₀ b)
    (hacc : ∀ v ∈ acc.values, s₀.IsNew b.store v) :
    Builds s₀ (entriesOf l acc) b fun s m => ∀ v ∈ m.values, s₀.IsNew s v := by
  induction l generalizing acc b with
  | nil => exact builds_pure h hacc
  | cons e rest ih =>
      unfold entriesOf
      refine (builds_valueOf h).bind fun key c h hle _ => ?_
      split
      · refine (builds_valueOf h).bind fun v d h hle' hv => ?_
        refine ih h fun w hw => ?_
        rcases OrderedMap.mem_values_insert hw with rfl | hw
        · exact hv
        · exact (hacc w hw).mono (Nat.le_trans hle hle')
      · exact builds_throw

theorem builds_mapping {id : Nat} (h : Sound s₀ b) :
    Builds s₀ (mapping id) b fun s m => ∀ v ∈ m.values, s₀.IsNew s v := by
  unfold mapping
  have hdiscard : Keeps (discard (mappingEntries id)) :=
    (keeps_mappingEntries id).bind fun _ => keeps_pure _
  refine hdiscard.then h fun _ b _ h => ?_
  refine (keeps_flatten _ id).then h fun _ b _ h => ?_
  refine (keeps_mappingEntries id).then h fun l b _ h => ?_
  exact builds_entriesOf h fun v hv => by cases hv

theorem builds_pairOf {id : Nat} (h : Sound s₀ b) :
    Builds s₀ (pairOf id) b fun s v => s₀.IsNew s v := by
  unfold pairOf
  refine (keeps_mappingEntries id).then h fun l b _ h => ?_
  split
  · refine (builds_valueOf h).bind fun k b h _ _ => ?_
    refine (builds_valueOf h).bind fun v b h _ _ => ?_
    exact builds_pure h (isNew_pair k v)
  · exact builds_throw

theorem builds_fill {t : Task} (h : Sound s₀ b) (ht : s₀.nodes.size ≤ t.target) :
    Builds s₀ (fill t) b fun _ _ => True := by
  have store {content : Container} {b : Building} (h : Sound s₀ b)
      (hc : ∀ v ∈ content.children, s₀.IsNew b.store v) :
      Builds s₀ (modify fun b => { b with store := b.store.set t.target content }) b
        fun _ _ => True := by
    unfold Builds
    rw [gives_modify]
    have hsize := Store.size_set b.store t.target content
    refine ⟨⟨h.store.set ht hc, fun id v hv => ?_, h.queue⟩, Nat.le_of_eq hsize.symm, trivial⟩
    exact (h.values id v hv).mono (Nat.le_of_eq hsize.symm)
  unfold fill
  split
  · refine (keeps_sequenceItems _).then h fun l b _ h => ?_
    refine (builds_mapM (fun _ _ h => builds_valueOf h) h).bind fun vs b h _ hvs => ?_
    exact store h hvs
  · refine (keeps_sequenceItems _).then h fun l b _ h => ?_
    refine (builds_mapM (fun _ _ h => builds_pairOf h) h).bind fun vs b h _ hvs => ?_
    exact store h hvs
  · refine (builds_mapping h).bind fun m b h _ hm => ?_
    exact store h hm
  · refine (builds_mapping h).bind fun m b h _ hm => ?_
    exact store h fun v hv => by cases hv

theorem builds_fills {tasks : List Task} (h : Sound s₀ b)
    (ht : ∀ t ∈ tasks, s₀.nodes.size ≤ t.target) :
    Builds s₀ (tasks.forM fill) b fun _ _ => True := by
  induction tasks generalizing b with
  | nil => exact builds_pure h trivial
  | cons t rest ih =>
      refine (builds_fill h (ht t List.mem_cons_self)).bind fun _ b h _ _ => ?_
      exact ih h fun t' ht' => ht t' (List.mem_cons_of_mem _ ht')

theorem builds_fillAll {bound : Nat} (h : Sound s₀ b) :
    Builds s₀ (fillAll bound) b fun _ _ => True := by
  induction bound generalizing b with
  | zero => exact builds_pure h trivial
  | succ bound ih =>
      unfold fillAll Builds
      rw [gives_bind, gives_get]
      split
      · exact builds_pure (V := fun _ _ => True) h trivial
      · rw [gives_bind, gives_modify]
        have hcleared : Sound s₀ { b with queue := [] } :=
          ⟨h.store, h.values, fun t ht => by cases ht⟩
        refine Builds.bind (builds_fills hcleared fun t ht => ?_) fun _ c h _ _ => ih h
        exact h.queue t (List.mem_reverse.mp ht)

theorem builds_document {root : Nat} (h : Sound s₀ b) :
    Builds s₀ (document root) b fun s v => s₀.IsNew s v := by
  unfold document
  refine (builds_valueOf h).bind fun v c h _ hv => ?_
  refine keeps_get.then h fun d e hd h => ?_
  rw [← hd] at hv
  exact (builds_fillAll h).bind fun _ f h hle _ => builds_pure h (hv.mono hle)

end Building

end Build

theorem extends_read {allowance : Nat} {text : List Char} {s₀ s : Store} {v : Value}
    (h : read allowance text s₀ = .ok (v, s)) : s₀.Extends s ∧ s₀.IsNew s v := by
  unfold read at h
  cases hnodes : NodeGraph.ofEvents allowance (.ofTokens (.ofText text)) with
  | error e =>
      rw [hnodes] at h
      cases h
  | ok nodes =>
      obtain ⟨root, graph⟩ := nodes
      rw [hnodes] at h
      cases root with
      | none =>
          cases h
          exact ⟨.refl _, isNew_scalar _⟩
      | some root =>
          have hstart : Build.Sound s₀ ⟨graph, s₀, .replicate graph.size none, []⟩ := by
            refine ⟨.refl _, fun id v hv => ?_, fun t ht => by cases ht⟩
            simp [Array.getElem?_replicate] at hv
          cases hrun : (Build.document root).run ⟨graph, s₀, .replicate graph.size none, []⟩ with
          | error e =>
              simp only [bind, Except.bind, hrun] at h
              cases h
          | ok r =>
              simp only [bind, Except.bind, hrun] at h
              cases h
              obtain ⟨hsound, -, hnew⟩ := Build.builds_document hstart _ _ hrun
              exact ⟨hsound.store, hnew⟩

end Yaml

namespace Description

variable {s₀ s : Store} {id : NodeId}

theorem extends_readValue {content : List Char} {name : String} {v : Value}
    (h : readValue content name s₀ = .ok (v, s)) : s₀.Extends s ∧ s₀.IsNew s v := by
  unfold readValue at h
  split at h
  · cases hr : Json.read nestingAllowance content s₀ with
    | error e =>
        rw [hr] at h
        cases h
    | ok r =>
        rw [hr] at h
        cases h
        exact Json.extends_read hr
  · cases hr : Yaml.read nestingAllowance content s₀ with
    | error e =>
        rw [hr] at h
        cases h
    | ok r =>
        rw [hr] at h
        cases h
        exact Yaml.extends_read hr

-- The root of a text that was read is a new mapping.
theorem extends_parse {content name : String} (h : parse content name s₀ = .ok (id, s)) :
    s₀.Extends s ∧ s₀.IsNew s (.node id) ∧ (s.mapping? id).isSome := by
  have empty {s : Store} (hs : s₀.Extends s) :
      s₀.Extends (s.alloc (.mapping .empty)).2 ∧
        s₀.IsNew (s.alloc (.mapping .empty)).2 (.node (s.alloc (.mapping .empty)).1) ∧
        ((s.alloc (.mapping .empty)).2.mapping? (s.alloc (.mapping .empty)).1).isSome := by
    refine ⟨hs.alloc (fun v hv => by cases hv), isNew_alloc hs, ?_⟩
    rw [mapping?_eq_some.mpr (get?_alloc_self s _)]
    rfl
  unfold parse at h
  dsimp only at h
  split at h
  · cases h
    exact empty (.refl s₀)
  · cases hr : readValue content.toList name s₀ with
    | error e =>
        rw [hr] at h
        cases h
    | ok r =>
        obtain ⟨v, s'⟩ := r
        rw [hr] at h
        obtain ⟨hext, hnew⟩ := extends_readValue hr
        simp only [bind, Except.bind] at h
        split at h
        next hv =>
          cases h
          obtain ⟨rfl, hm⟩ := asMapping?_eq_some.mp hv
          exact ⟨hext, hnew, by simp [hm]⟩
        · cases h
          exact empty hext
        · cases h

end Description

namespace Location

variable {s₀ s : Store} {id : NodeId}

theorem extends_loadEntry {a : Archive} {name : String}
    (h : loadEntry a name s₀ = .ok (id, s)) :
    s₀.Extends s ∧ s₀.IsNew s (.node id) ∧ (s.mapping? id).isSome := by
  unfold loadEntry at h
  cases ht : a.readText name with
  | error e =>
      rw [ht] at h
      cases h
  | ok text =>
      rw [ht] at h
      exact Description.extends_parse h

theorem extends_loadFile {t : FileTree} {sizeLimit : Int} {path : FilePath}
    (h : loadFile t sizeLimit path s₀ = .ok (id, s)) :
    s₀.Extends s ∧ s₀.IsNew s (.node id) ∧ (s.mapping? id).isSome := by
  unfold loadFile at h
  split at h
  · cases h
  · cases h
  · cases h
  · split at h
    · split at h <;> cases h
    · split at h
      · cases h
      · exact Description.extends_parse h

theorem extends_load {t : FileTree} {sizeLimit : Int} {l : Location}
    (h : load t sizeLimit l s₀ = .ok (id, s)) :
    s₀.Extends s ∧ s₀.IsNew s (.node id) ∧ (s.mapping? id).isSome := by
  unfold load at h
  split at h
  · exact extends_loadFile h
  · next path _ =>
    cases ha : Archive.openAt t path sizeLimit with
    | error e =>
        rw [ha] at h
        cases h
    | ok a =>
        rw [ha] at h
        exact extends_loadEntry h

end Location

end ApiGraph
