import ApiGraph.Proofs.Splitting.Naming
import ApiGraph.Proofs.Splitting.Reaching
import ApiGraph.Proofs.Splitting.Retold

namespace ApiGraph.Splitting

open Store Resolve Reference

section Whole

variable {s : Store} {q : Request} {names : List String} {n : String}

-- A description that refers to no file is left as it is.
theorem ending_whole (hs : Splits s q names) (hn : n ∈ names) :
    ∃ r, q.ending s = (.ok (), r) ∧ r.store = s := by
  have hstart : (startRun s q.document q.scope).store = s := hs.ensureComponents hn fun _ _ _ => rfl
  have hself : SelfContained (startRun s q.document q.scope).store q.document := by
    rw [hstart]
    exact hs.selfContained
  have hbarren : Barren q.context q.scope (startRun s q.document q.scope) := by
    refine ⟨.inl rfl, fun d hd hother => ?_⟩
    obtain ⟨key, hkey⟩ := OrderedMap.mem_values_iff.mp hd
    exact absurd (loaded_startRun hkey).1 hother
  have htour : Tour q.context q.scope [] (Rests _) _ := tour_of_selfContained hself hbarren
  have hrun := htour.run (.refl _) .refl
  unfold Request.ending
  rcases hend : (run q.context q.scope).run.run (startRun s q.document q.scope) with ⟨e | a, r⟩
  · exact ((ensures_of_error hend).mp hrun).elim
  · exact ⟨r, rfl, ((ensures_of_ok hend).mp hrun).store.trans hstart⟩

theorem Splits.isEmpty_eq_false (hs : Splits s q names) (hn : n ∈ names) {t : Store}
    (ht : Preserves s q names t) : (t.entries q.document).isEmpty = false := by
  obtain ⟨body, m, hbody⟩ := hs.exists_body hn
  obtain ⟨p, mp, sq, mq, -, hsections⟩ := hs.exists_sections hbody.component
  exact OrderedMap.isEmpty_eq_false_of_get? (fieldMapping?_eq_some.mp (hsections t ht).1).1

end Whole

-- The schema at the place has got the name.
def NamedAt (s : Store) (document : NodeId) (table : InlineTable) (p : Path) (name : String) : Prop :=
  ∃ i, s.at? (.node document) p = some (.node i) ∧ table.nameOf? i = some name

-- Both passes name the same places in the same way, or they fail alike.
inductive NamedAlikeAt (s t : Store) (document : NodeId) :
    Except Fault Naming.Progress → Except Fault Naming.Progress → Prop
  | ok {a b : Naming.Progress}
      (h : ∀ p name, NamedAt s document a.table p name ↔ NamedAt t document b.table p name) :
      NamedAlikeAt s t document (.ok a) (.ok b)
  | error (e : Fault) : NamedAlikeAt s t document (.error e) (.error e)

section Named

variable {s : Store} {q : Request} {names : List String} {r : Run}

theorem NamedAlikeAt.refl (s : Store) (document : NodeId) (e : Except Fault Naming.Progress) :
    NamedAlikeAt s s document e e := by
  cases e with
  | error e => exact .error e
  | ok a => exact .ok fun _ _ => Iff.rfl

-- What stands for each other stands at the same place, so the names are at the same places.
theorem Restored.namedAt_iff (hs : Splits s q names) (h : Restored s q names r) {tb tb' : InlineTable}
    (htb : TablesAlike (Inner s r.store q.document names) (Moved s q.document names) tb tb') (p : Path)
    (name : String) : NamedAt s q.document tb p name ↔ NamedAt r.store q.document tb' p name := by
  have hapart := h.apart hs
  constructor
  · rintro ⟨i, hi, hname⟩
    obtain ⟨j, hij⟩ := htb.exists_right hname
    obtain ⟨p', hp, hp'⟩ := exists_place_of_counterparts hs h hij
    obtain rfl := hs.aliasFree p p' i hi hp
    exact ⟨j, hp', (htb.nameOf? hapart hij).symm.trans hname⟩
  · rintro ⟨j, hj, hname⟩
    obtain ⟨i, hij⟩ := htb.exists_left hname
    obtain ⟨p', hp, hp'⟩ := exists_place_of_counterparts hs h hij
    obtain rfl := h.aliasFree hs p p' j hj hp'
    exact ⟨i, hp, (htb.nameOf? hapart hij).trans hname⟩

theorem Restored.named (hs : Splits s q names) (h : Restored s q names r) (hnonempty : "" ∉ names)
    (settings : NamingSettings) :
    NamedAlikeAt s r.store q.document (Naming.collect s settings q.document)
      (Naming.collect r.store settings q.document) := by
  rcases (h.retells hs hnonempty).named settings with ⟨e, hleft, hright⟩ | ⟨a, b, hleft, hright, htb, -⟩
  · rw [hleft, hright]
    exact .error e
  · rw [hleft, hright]
    exact .ok (h.namedAt_iff hs htb)

end Named

section OneFile

def typeString : Entries := OrderedMap.ofList [(.str "type", .str "string")]

-- The store after a file was read that says no more than a type.
def withTypeString (t : Store) : Store := (t.alloc (.mapping .empty)).2.set t.nodes.size (.mapping typeString)

def typeStringGraph : Yaml.NodeGraph :=
  #[⟨.map, .mapping [(1, 2)]⟩, ⟨.str, .scalar "type"⟩, ⟨.str, .scalar "string"⟩]

theorem ofEvents_typeString :
    (Yaml.NodeGraph.ofEvents nestingAllowance (.ofTokens (.ofText "type: string".toList))).toOption =
      some (some 0, typeStringGraph) := by decide +kernel

theorem read_typeString (t : Store) : Yaml.read nestingAllowance "type: string".toList t =
    .ok (.node t.nodes.size, withTypeString t) := by
  have hgraph := ofEvents_typeString
  have hbuild : (Yaml.Build.document 0).run
      ⟨typeStringGraph, t, .replicate typeStringGraph.size none, []⟩ =
      .ok (.node t.nodes.size, ⟨typeStringGraph, withTypeString t,
        #[some (.node t.nodes.size), some (.str "type"), some (.str "string")], []⟩) := rfl
  unfold Yaml.read
  cases hevents : Yaml.NodeGraph.ofEvents nestingAllowance (.ofTokens (.ofText "type: string".toList)) with
  | error e =>
      rw [hevents] at hgraph
      cases hgraph
  | ok p =>
      rw [hevents] at hgraph
      obtain rfl := Option.some.inj hgraph
      dsimp only [bind, Except.bind]
      rw [hbuild]
      rfl

theorem mapping?_withTypeString (t : Store) :
    (withTypeString t).mapping? t.nodes.size = some typeString := by
  refine mapping?_eq_some.mpr (get?_set_self _ _ ?_)
  simp [Store.alloc]

theorem parse_typeString (t : Store) {name : String} (hname : hasEnding name.toList ".yaml" = true) :
    Description.parse "type: string" name t = .ok (t.nodes.size, withTypeString t) := by
  have hformat : Description.formatOf "type: string".toList name = .yaml := by
    unfold Description.formatOf
    dsimp only
    rw [hname]
    rfl
  have hvalue : Description.readValue "type: string".toList name t =
      .ok (.node t.nodes.size, withTypeString t) := by
    unfold Description.readValue
    rw [hformat]
    dsimp only
    rw [read_typeString]
    rfl
  have hmapping : (withTypeString t).asMapping? (.node t.nodes.size) = some (t.nodes.size, typeString) :=
    asMapping?_eq_some.mpr ⟨rfl, mapping?_withTypeString t⟩
  have hblank : "type: string".toList.all Text.isBlank = false := by decide
  unfold Description.parse
  dsimp only
  rw [hblank, hvalue]
  dsimp only [bind, Except.bind]
  rw [hmapping]
  rfl

-- A description with one schema of that type can be split at it.
theorem splits_of_typeString {s : Store} {q : Request} {name : String} {body : NodeId} {l : Location}
    {h : NodeId → Path} (hwell : s.WellFormed) (hfits : s.fits h = true)
    (hroot : h q.document = []) (hd : q.document < s.nodes.size)
    (hplain : ∀ id < s.nodes.size, ∀ m ∈ s.mapping? id, isExternalRef m = false ∧
      m.has resolvedRefKey = false ∧ m.has circularRefKey = false) (hword : IsWord name)
    (hcomponent : componentIn? s q.document "schemas" name = some body)
    (hbody : s.mapping? body = some typeString) (hbeside : q.beside? name = some l)
    (hkey : q.scope.key ≠ some (locationKey q.tree l))
    (hparse : ∀ t, parseFile q.context l t = .ok (t.nodes.size, withTypeString t)) :
    Splits s q [name] where
  wellFormed := hwell
  closed _ hid := lt_of_fits hfits hroot hd hid
  aliasFree := aliasFree_of_fits hfits hroot hd
  selfContained id m _ hm := (hplain id (lt_size_of_mapping? hm) m hm).1
  unmarked id m _ hm := (hplain id (lt_size_of_mapping? hm) m hm).2
  words n hn := by
    rw [List.mem_singleton.mp hn]
    exact hword
  bodies n hn := by
    rw [List.mem_singleton.mp hn]
    exact ⟨body, typeString, hcomponent, hbody, rfl, rfl, rfl⟩
  files n hn := by
    rw [List.mem_singleton.mp hn]
    refine ⟨l, hbeside, hkey, fun body' t hbody' => ⟨_, _, hparse t, ?_⟩⟩
    obtain rfl := Option.some.inj (hcomponent.symm.trans hbody')
    refine isCopy_of_scalars hbody (mapping?_withTypeString t) (fun v hv => ?_) (Nat.le_refl _)
    exact ⟨.str "string", List.mem_singleton.mp hv⟩

-- A description whose only response is the schema, and the file of the schema beside it.
def response : Store :=
  ⟨#[
    .ofFields [("components", .node 1), ("paths", .node 4)],
    .ofFields [("schemas", .node 2)],
    .ofFields [("Pet", .node 3)],
    .ofFields [("type", .str "string")],
    .ofFields [("/pets", .node 5)],
    .ofFields [("get", .node 6)],
    .ofFields [("responses", .node 7)],
    .ofFields [("200", .node 8)],
    .ofFields [("content", .node 9)],
    .ofFields [("application/json", .node 10)],
    .ofFields [("schema", .node 11)],
    .ofFields [("$ref", .str "#/components/schemas/Pet")]]⟩

def responseHome (id : NodeId) : Path :=
  ([[], [0], [0, 0], [0, 0, 0], [1], [1, 0], [1, 0, 0], [1, 0, 0, 0], [1, 0, 0, 0, 0], [1, 0, 0, 0, 0, 0],
    [1, 0, 0, 0, 0, 0, 0], [1, 0, 0, 0, 0, 0, 0, 0]] : List Path).getD id []

def fileCall (name : String) : Request :=
  ⟨0, some (.text "/api.json"), {}, [], [], none,
    ⟨.mk [(name, .bytes "type: string".toUTF8)] .nil, ⟨1, []⟩⟩⟩

theorem splits_response : Splits response (fileCall "Pet.yaml") ["Pet"] := by
  have hbeside : (fileCall "Pet.yaml").beside? "Pet" = some ⟨"/Pet.yaml", none⟩ := by decide +kernel
  have hkey : (fileCall "Pet.yaml").scope.key ≠
      some (locationKey (fileCall "Pet.yaml").tree ⟨"/Pet.yaml", none⟩) := by decide +kernel
  have hparse (t : Store) : parseFile (fileCall "Pet.yaml").context ⟨"/Pet.yaml", none⟩ t =
      Description.parse "type: string" "Pet.yaml" t := rfl
  refine splits_of_typeString (h := responseHome) (by decide) (by decide) rfl (by decide) (by decide +kernel)
    (by decide) (by rfl) (by rfl) hbeside hkey fun t => ?_
  rw [hparse, parse_typeString t (by decide)]

-- A schema without a name, and its file beside the description.
def nameless : Store :=
  ⟨#[
    .ofFields [("components", .node 1)],
    .ofFields [("schemas", .node 2)],
    .ofFields [("", .node 3)],
    .ofFields [("type", .str "string")]]⟩

theorem splits_nameless : Splits nameless (fileCall ".yaml") [""] := by
  have hbeside : (fileCall ".yaml").beside? "" = some ⟨"/.yaml", none⟩ := by decide +kernel
  have hkey : (fileCall ".yaml").scope.key ≠
      some (locationKey (fileCall ".yaml").tree ⟨"/.yaml", none⟩) := by decide +kernel
  have hparse (t : Store) : parseFile (fileCall ".yaml").context ⟨"/.yaml", none⟩ t =
      Description.parse "type: string" ".yaml" t := rfl
  refine splits_of_typeString (h := (List.replicate · 0)) (by decide) (by decide) rfl (by decide)
    (by decide +kernel) (by decide) (by rfl) (by rfl) hbeside hkey fun t => ?_
  rw [hparse, parse_typeString t (by decide)]

end OneFile

section Split

variable {s : Store} {q : Request} {names : List String}

theorem withBodies_nil (s : Store) (document : NodeId) (f : String → Entries → Entries) :
    withBodies s document [] f = s := by
  unfold withBodies
  refine congrArg Store.mk (Array.ext (by simp) fun i _ _ => ?_)
  simp [chosen?]

-- The description with schemas in files of their own is resolved to the same description, but for the
-- note of its name in each of them. The same components are reached from it, and the same schemas get
-- the same names at the same places.
structure SeenAlike (document : NodeId) (names : List String) (whole split : Outcome) : Prop where
  result : split.result = .ok ()
  content : SameContent (noted whole.store document names) split.store (.node document) (.node document)
  reachable : ∀ settings, (Reachability.collect whole.store settings document).names =
    (Reachability.collect split.store settings document).names
  named : ∀ settings, NamedAlikeAt whole.store split.store document
    (Naming.collect whole.store settings document) (Naming.collect split.store settings document)

-- No pass hit a limit.
def Unlimited (t : Outcome) (document : NodeId) (g : Settings) : Prop :=
  t.result = .ok () ∧ t.limits = [] ∧
  (Reachability.collect t.store g.reachability document).limits = [] ∧
  ∃ p, Naming.collect t.store g.naming document = .ok p ∧ p.limits = []

def isUnlimited (t : Outcome) (document : NodeId) (g : Settings) : Bool :=
  t.result.toBool && t.limits.isEmpty &&
  (Reachability.collect t.store g.reachability document).limits.isEmpty &&
  (Naming.collect t.store g.naming document).toOption.any (·.limits.isEmpty)

theorem isUnlimited_iff {t : Outcome} {document : NodeId} {g : Settings} :
    isUnlimited t document g = true ↔ Unlimited t document g := by
  unfold isUnlimited Unlimited
  cases t.result <;> cases Naming.collect t.store g.naming document <;>
    simp [Except.toBool, Except.toOption, and_assoc]

instance (t : Outcome) (document : NodeId) (g : Settings) : Decidable (Unlimited t document g) :=
  decidable_of_iff _ isUnlimited_iff

-- With some of its schemas in files of their own the description is resolved to the same
-- description with a note in each of them, the same components are reached, and the same schemas
-- get the same names.
theorem split_unseen (hs : Splits s q names) (hnonempty : "" ∉ names)
    (hok : (references s q).result = .ok ())
    (hlimits : (references (movedOut s q.document names) q).limits = []) :
    SeenAlike q.document names (references s q) (references (movedOut s q.document names) q) := by
  by_cases hempty : names = []
  · subst hempty
    have hsame : movedOut s q.document [] = s := withBodies_nil s _ _
    rw [hsame]
    refine ⟨hok, ?_, fun _ => rfl, fun _ => .refl _ _ _⟩
    unfold noted
    rw [withBodies_nil]
    rfl
  · obtain ⟨n, hn⟩ := List.exists_mem_of_ne_nil names hempty
    have hne := hs.isEmpty_eq_false hn (t := s) fun _ _ _ => rfl
    have hne' := hs.isEmpty_eq_false hn (preserves_withBodies fun n _ => fileReference n)
    rcases runs_or_fails q with ⟨e, he, hfails⟩ | hruns
    · rw [hfails s hne] at hok
      exact absurd hok he
    · obtain ⟨r₀, hwhole, hstore⟩ := ending_whole hs hn
      obtain ⟨r, hend, hlaid⟩ := laid_ending hs hnonempty hn
      have hmoved : references (movedOut s q.document names) q = Outcome.of (.ok (), r) := by
        rw [← hend]
        exact hruns _ hne'
      have hresolved : (references s q).store = s := by
        rw [hruns s hne, hwhole]
        exact hstore
      rw [hmoved] at hlimits
      have hrestored : Restored s q names r :=
        ⟨hlaid, fun id n hc => hlaid.returned hs hend hlimits hc⟩
      rw [hmoved]
      constructor
      · rfl
      · rw [hresolved]
        exact hrestored.sameContent hs
      · rw [hresolved]
        exact fun settings => ((hrestored.retells hs hnonempty).collect settings).1
      · rw [hresolved]
        exact hrestored.named hs hnonempty

theorem split_unseen_response :
    Splits response (fileCall "Pet.yaml") ["Pet"] ∧
    Unlimited (references (movedOut response 0 ["Pet"]) (fileCall "Pet.yaml")) 0 {} ∧
    SeenAlike 0 ["Pet"] (references response (fileCall "Pet.yaml"))
      (references (movedOut response 0 ["Pet"]) (fileCall "Pet.yaml")) := by
  have hwhole : Unlimited (references response (fileCall "Pet.yaml")) 0 {} := by decide +kernel
  have hsplit : Unlimited (references (movedOut response 0 ["Pet"]) (fileCall "Pet.yaml")) 0 {} := by
    decide +kernel
  exact ⟨splits_response, hsplit, split_unseen splits_response (by decide) hwhole.1 hsplit.2.1⟩

def keyCount : Shape → Nat
  | .mapping keys => keys.length
  | _ => 0

-- A file without a stem names no schema, so the schema from it bears no note.
theorem nameless_unnoted :
    Splits nameless (fileCall ".yaml") [""] ∧
    Unlimited (references nameless (fileCall ".yaml")) 0 {} ∧
    Unlimited (references (movedOut nameless 0 [""]) (fileCall ".yaml")) 0 {} ∧
    ¬ SameContent (noted (references nameless (fileCall ".yaml")).store 0 [""])
      (references (movedOut nameless 0 [""]) (fileCall ".yaml")).store (.node 0) (.node 0) := by
  refine ⟨splits_nameless, by decide +kernel, by decide +kernel, fun hsame => ?_⟩
  have hcount := congrArg (Option.map keyCount) (congrFun hsame [0, 0, 0])
  exact absurd hcount (by decide +kernel)

end Split

end ApiGraph.Splitting
