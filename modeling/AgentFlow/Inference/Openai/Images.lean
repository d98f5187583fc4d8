/-
# Image references in a conversation

The history names images by key only, and a key enters it with an incoming
message, leaves it when the turn is rolled back, and is struck out when the
resolver has no URL for it. The keys of a history are a finite set
(`imageKeys`), and every operation on the history is a set operation on it:
union for an append, nothing for the repair, difference for the expiry. The
bound on the keys, and that a key once found missing stays away until it is
sent again, are invariants of sessions in these terms.

Key definitions: `imageKeys`, `Clean`, `Barred`.
Key theorems: `imageKeys_markImageRefsExpired`, `Conversation.retry_missing`,
`Conversation.image_references`.
-/
import AgentFlow.Inference.Openai.Wire
import AgentFlow.Inference.Openai.Canonical
import Mathlib.Data.Finset.Card

namespace AgentFlow.Openai

open Json

/-- The keys of the image references in a history. -/
def imageKeys (ms : List Value) : Finset String := ((ms.flatMap contentItems).filterMap imageRefKey?).toFinset

theorem mem_imageKeys {ms : List Value} {k : String} :
    k ∈ imageKeys ms ↔ ∃ m ∈ ms, ∃ item ∈ contentItems m, imageRefKey? item = some k := by
  simp only [imageKeys, List.mem_toFinset, List.mem_filterMap, List.mem_flatMap]
  constructor
  · rintro ⟨item, ⟨m, hm, hi⟩, hk⟩
    exact ⟨m, hm, item, hi, hk⟩
  · rintro ⟨m, hm, item, hi, hk⟩
    exact ⟨item, ⟨m, hm, hi⟩, hk⟩

/-! ### Collecting -/

theorem foldl_collect_spec : ∀ (l acc : List String), acc.Nodup →
    (l.foldl (fun keys k => if k ∈ keys then keys else keys ++ [k]) acc).Nodup ∧
      (l.foldl (fun keys k => if k ∈ keys then keys else keys ++ [k]) acc).toFinset = acc.toFinset ∪ l.toFinset
  | [], acc, h => ⟨h, by simp⟩
  | k :: l, acc, h => by
    rw [List.foldl_cons]
    by_cases hk : k ∈ acc
    · rw [if_pos hk]
      obtain ⟨h1, h2⟩ := foldl_collect_spec l acc h
      refine ⟨h1, h2.trans ?_⟩
      rw [List.toFinset_cons, Finset.union_insert, Finset.insert_eq_of_mem]
      exact Finset.mem_union_left _ (List.mem_toFinset.mpr hk)
    · rw [if_neg hk]
      have hn : (acc ++ [k]).Nodup :=
        List.nodup_append.mpr ⟨h, List.nodup_singleton k, fun a ha b hb => by
          rw [List.mem_singleton.mp hb]
          rintro rfl
          exact hk ha⟩
      obtain ⟨h1, h2⟩ := foldl_collect_spec l (acc ++ [k]) hn
      refine ⟨h1, h2.trans ?_⟩
      rw [List.toFinset_append, List.toFinset_cons, List.toFinset_cons, List.toFinset_nil, Finset.union_assoc]
      congr 1

theorem collectImageRefKeys_nodup (ms : List Value) : (collectImageRefKeys ms).Nodup :=
  (foldl_collect_spec _ [] List.nodup_nil).1

theorem collectImageRefKeys_toFinset (ms : List Value) : (collectImageRefKeys ms).toFinset = imageKeys ms := by
  rw [collectImageRefKeys, (foldl_collect_spec _ [] List.nodup_nil).2, imageKeys]
  simp

theorem mem_collectImageRefKeys {ms : List Value} {k : String} : k ∈ collectImageRefKeys ms ↔ k ∈ imageKeys ms := by
  rw [← collectImageRefKeys_toFinset, List.mem_toFinset]

theorem collectImageRefKeys_length (ms : List Value) : (collectImageRefKeys ms).length = (imageKeys ms).card := by
  rw [← collectImageRefKeys_toFinset, List.toFinset_card_of_nodup (collectImageRefKeys_nodup ms)]

/-! ### The items of a message -/

theorem contentItems_mapContent (f : Value → Value) (m : Value) :
    contentItems (mapContent f m) = (contentItems m).map f := by
  rw [contentItems, contentItems, Value.arrayAt?, Value.arrayAt?, mapContent, Value.find?_modify, if_pos rfl]
  cases h : m.find? "content" with
  | none => rfl
  | some v => cases v <;> rfl

@[simp]
theorem textItem_type (t : String) : (textItem t).stringAt? "type" = some "text" := by
  simp [textItem, Value.object, Value.stringAt?]

@[simp]
theorem imageUrlItem_type (u : String) : (imageUrlItem u).stringAt? "type" = some "image_url" := by
  simp [imageUrlItem, Value.object, Value.stringAt?]

theorem imageRefKey?_imageRefItem {k : String} (h : k ≠ "") : imageRefKey? (imageRefItem k) = some k := by
  simp [imageRefKey?, imageRefItem, Value.object, Value.stringAt?, h]

theorem imageRefKey?_of_type {item : Value} {t : String} (h : item.stringAt? "type" = some t) (ht : t ≠ "image_ref") :
    imageRefKey? item = none := by
  simp [imageRefKey?, h, ht]

theorem imageRefKey?_ne_empty {item : Value} {k : String} (h : imageRefKey? item = some k) : k ≠ "" := by
  unfold imageRefKey? at h
  split_ifs at h
  simpa using (Option.filter_eq_some_iff.mp h).2

/-- Every item of the message that says it is an image reference is one. -/
def Clean (m : Value) : Prop :=
  ∀ item ∈ contentItems m, item.stringAt? "type" = some "image_ref" → (imageRefKey? item).isSome = true

theorem contentItems_of_stringAt? {m : Value} {s : String} (h : m.stringAt? "content" = some s) :
    contentItems m = [] := by
  rw [Value.stringAt?] at h
  obtain ⟨v, hv, hs⟩ := Option.bind_eq_some_iff.mp h
  rw [contentItems, Value.arrayAt?, hv, Value.str?_eq_some hs]
  rfl

theorem contentItems_toolMessage (id content : String) : contentItems (toolMessage id content) = [] :=
  contentItems_of_stringAt? (s := content) (by simp [toolMessage, Value.object, Value.stringAt?])

theorem contentItems_system (t : String) :
    contentItems (.object [("role", .str "system"), ("content", .str t)]) = [] :=
  contentItems_of_stringAt? (s := t) (by simp [Value.object, Value.stringAt?])

/-- What a kept item of a user message is. -/
theorem userItem_cases {item item' : Value} (h : userItem item = some item') :
    (∃ k, k ≠ "" ∧ item' = imageRefItem k) ∨ ∃ t, item' = textItem t := by
  unfold userItem at h
  cases hk : imageRefKey? item with
  | some k =>
    rw [hk] at h
    exact Or.inl ⟨k, imageRefKey?_ne_empty hk, (Option.some.inj h).symm⟩
  | none =>
    rw [hk] at h
    dsimp only at h
    split_ifs at h
    obtain ⟨t, -, rfl⟩ := Option.map_eq_some_iff.mp h
    exact Or.inr ⟨t, rfl⟩

theorem clean_of_content {m v : Value} {role : String} (h : m.find? "content" = some (messageContent v role)) :
    Clean m := by
  intro item hi ht
  rw [contentItems, Value.arrayAt?, h] at hi
  unfold messageContent at hi
  split at hi
  · simp [Value.arr?] at hi
  · split_ifs at hi
    · obtain ⟨i, -, hu⟩ := List.mem_filterMap.mp (by simpa [userContentWithImages] using hi)
      rcases userItem_cases hu with ⟨k, hk, rfl⟩ | ⟨t, rfl⟩
      · rw [imageRefKey?_imageRefItem hk]; rfl
      · simp at ht
    · simp [Value.arr?] at hi
  · simp [Value.arr?] at hi

theorem clean_toOpenAiMessages {C : Codec} {text : String} {ms : List Value}
    (h : toOpenAiMessages C text = .ok ms) : ∀ m ∈ ms, Clean m := by
  intro m hm
  rcases toOpenAiMessages_cases h with ht | ⟨v, role, msg, -, -, rfl, -, hc⟩
  · obtain ⟨id, content, rfl⟩ := ht m hm
    intro item hi
    rw [contentItems_toolMessage] at hi
    simp at hi
  · obtain rfl := List.mem_singleton.mp hm
    exact clean_of_content hc

/-! ### The operations on the history, as set operations on the keys -/

theorem imageKeys_append (ms ms' : List Value) : imageKeys (ms ++ ms') = imageKeys ms ∪ imageKeys ms' := by
  rw [imageKeys, List.flatMap_append, List.filterMap_append, List.toFinset_append]
  rfl

/-- Messages without items add no key. -/
theorem imageKeys_eq_empty {ms : List Value} (h : ∀ m ∈ ms, contentItems m = []) : imageKeys ms = ∅ := by
  refine Finset.eq_empty_of_forall_notMem fun k hk => ?_
  obtain ⟨m, hm, item, hi, -⟩ := mem_imageKeys.mp hk
  rw [h m hm] at hi
  simp at hi

/-- The repair adds only tool messages, and takes nothing away. -/
theorem Repaired.imageKeys {ms r : List Value} (h : Repaired ms r) : imageKeys r = imageKeys ms := by
  induction h with
  | nil => rfl
  | @skip m rest r _ _ ih =>
    rw [← List.singleton_append, imageKeys_append, ih, ← imageKeys_append, List.singleton_append]
  | @answer m run rest r _ _ _ ih =>
    have hmiss : Openai.imageKeys (missingResults (wantedIds (callsOf m)) (run.map toolCallId)) = ∅ := by
      refine imageKeys_eq_empty fun t ht => ?_
      obtain ⟨id, rfl⟩ := mem_missingResults ht
      exact contentItems_toolMessage id _
    rw [← List.singleton_append, ← List.singleton_append (l := run ++ rest), imageKeys_append, imageKeys_append,
      imageKeys_append, imageKeys_append, imageKeys_append, hmiss, ih, Finset.union_empty]

theorem imageRefKey?_expireItem (ks : List String) (item : Value) :
    imageRefKey? (expireItem ks item) = (imageRefKey? item).filter fun k => k ∉ ks := by
  unfold expireItem
  cases hk : imageRefKey? item with
  | none => simpa using hk
  | some k =>
    dsimp only
    split_ifs with h
    · rw [imageRefKey?_of_type (textItem_type _) (by decide)]
      simp [Option.filter, h]
    · simp [Option.filter, hk, h]

/-- Expiring strikes the keys out. -/
theorem imageKeys_markImageRefsExpired (ms : List Value) (ks : List String) :
    imageKeys (markImageRefsExpired ms ks) = imageKeys ms \ ks.toFinset := by
  ext k
  rw [Finset.mem_sdiff, mem_imageKeys, mem_imageKeys, List.mem_toFinset]
  constructor
  · rintro ⟨m, hm, item, hi, hk⟩
    obtain ⟨m', hm', rfl⟩ := List.mem_map.mp hm
    rw [contentItems_mapContent] at hi
    obtain ⟨item', hi', rfl⟩ := List.mem_map.mp hi
    rw [imageRefKey?_expireItem] at hk
    obtain ⟨hk, hn⟩ := Option.filter_eq_some_iff.mp hk
    exact ⟨⟨m', hm', item', hi', hk⟩, by simpa using hn⟩
  · rintro ⟨⟨m, hm, item, hi, hk⟩, hn⟩
    refine ⟨_, List.mem_map_of_mem hm, expireItem ks item, ?_, ?_⟩
    · rw [contentItems_mapContent]
      exact List.mem_map_of_mem hi
    · rw [imageRefKey?_expireItem]
      exact Option.filter_eq_some_iff.mpr ⟨hk, by simpa using hn⟩

theorem Clean.expire {m : Value} (h : Clean m) (ks : List String) : Clean (mapContent (expireItem ks) m) := by
  intro item hi ht
  rw [contentItems_mapContent] at hi
  obtain ⟨item', hi', rfl⟩ := List.mem_map.mp hi
  unfold expireItem at ht ⊢
  cases hk : imageRefKey? item' with
  | none =>
    rw [hk] at ht
    exact absurd (h item' hi' ht) (by simp [hk])
  | some k =>
    rw [hk] at ht
    dsimp only at ht ⊢
    split_ifs at ht ⊢ with hks
    · simp at ht
    · rw [hk]; rfl

/-- No item of the message says it is an image reference. -/
def NoImageRef (m : Value) : Prop := ∀ item ∈ contentItems m, item.stringAt? "type" ≠ some "image_ref"

/-- Nothing that is sent of a history has an image reference. -/
theorem Sent.noImageRef {ms wire : List Value} (h : Sent ms wire) (hc : ∀ m ∈ ms, Clean m) :
    ∀ m ∈ wire, NoImageRef m := by
  intro m hm item hi ht
  rcases h with ⟨hnone, rfl⟩ | ⟨urls, hu⟩
  · obtain ⟨k, hk⟩ := Option.isSome_iff_exists.mp (hc m hm item hi ht)
    have := mem_collectImageRefKeys.mpr (mem_imageKeys.mpr ⟨m, hm, item, hi, hk⟩)
    rw [hnone] at this
    simp at this
  · obtain rfl := congrArg Prod.fst hu
    have hmissing := congrArg Prod.snd hu
    obtain ⟨m', hm', rfl⟩ := List.mem_map.mp hm
    rw [contentItems_mapContent] at hi
    obtain ⟨item', hi', rfl⟩ := List.mem_map.mp hi
    unfold substituteItem at ht
    cases hk : imageRefKey? item' with
    | none =>
      rw [hk] at ht
      exact absurd (hc m' hm' item' hi' ht) (by simp [hk])
    | some k =>
      have hmem := mem_collectImageRefKeys.mpr (mem_imageKeys.mpr ⟨m', hm', item', hi', hk⟩)
      have hsome := List.filter_eq_nil_iff.mp hmissing k hmem
      rw [hk, Option.bind_some] at ht
      cases hurl : urls.lookup k with
      | none => simp [hurl] at hsome
      | some url => simp [hurl] at ht

/-! ### One call -/

/-- The keys of a message that is sent. -/
def incomingKeys (C : Codec) (text : String) : Finset String :=
  match toOpenAiMessages C text with
  | .ok incoming => imageKeys incoming
  | .error _ => ∅

theorem incomingKeys_of_ok {C : Codec} {text : String} {incoming : List Value}
    (h : toOpenAiMessages C text = .ok incoming) : incomingKeys C text = imageKeys incoming := by
  rw [incomingKeys, h]

/-- A history with few images, each a reference. -/
structure Tidy (ms : List Value) : Prop where
  clean : ∀ m ∈ ms, Clean m
  bound : (imageKeys ms).card ≤ 20

namespace Conversation

variable {B : Conversation} {previous messages : List Value} {onToken : Bool} {a : Attempt}

theorem missing_notMem_asks (ks : List String) : .missing ks ∉ B.asks messages := by
  unfold asks
  split_ifs
  · simp
  · simp

theorem missing_notMem_post {wire : List Value} (ks : List String) : .missing ks ∉ (B.post messages wire onToken a).1 := by
  have hsent : ∀ body, .missing ks ∉ B.sentEvents onToken a body := by
    intro body h
    rcases List.mem_cons.mp h with h | h
    · cases h
    · obtain ⟨d, -, hd | hd⟩ := mem_deltaEvents h
      · cases hd
      · cases hd
  rcases B.post_cases messages wire onToken a with hp | ⟨body, -, hp | ⟨-, hp⟩ | ⟨f, -, hp⟩⟩
  · simp [hp]
  · rw [hp]
    exact hsent body
  · rw [hp]
    simpa using hsent body
  · rw [hp]
    simpa using hsent body

/-- An attempt that finds keys missing ends the call, and they are struck out
of the history before it. -/
theorem attempt_missing {ks : List String} (h : .missing ks ∈ (B.attempt previous messages onToken a).1) :
    ∃ e, B.attempt previous messages onToken a =
      (B.asks messages ++ [.missing ks], .stop (.failed e) (markImageRefsExpired previous ks)) := by
  rcases B.attempt_cases previous messages onToken a with ⟨-, ha⟩ | ha | ⟨f, missing, ha, -⟩ | ⟨wire, -, ha, -⟩
  · rw [ha] at h; simp at h
  · rw [ha] at h
    exact absurd h (missing_notMem_asks ks)
  · rw [ha] at h
    rcases List.mem_append.mp h with hm | hm
    · exact absurd hm (missing_notMem_asks ks)
    · unfold missingEvents at hm ha
      split_ifs at hm ha
      · simp at hm
      · obtain rfl : ks = missing := by simpa using hm
        exact ⟨f, ha⟩
  · rw [ha] at h
    rcases List.mem_append.mp h with hm | hm
    · exact absurd hm (missing_notMem_asks ks)
    · exact absurd hm (missing_notMem_post ks)

/-- Keys are found missing once, at the end of a call, and are then struck
out. -/
theorem retry_missing : ∀ (n : ℕ) (attempts : ℕ → Attempt) (last : Status.Error) (ks : List String),
    .missing ks ∈ (B.retry previous messages onToken n attempts last).events →
      (B.retry previous messages onToken n attempts last).messages = markImageRefsExpired previous ks ∧
      ∃ p, (B.retry previous messages onToken n attempts last).events = p ++ [.missing ks] ∧
        ∀ ks', .missing ks' ∉ p
  | 0, _, _, ks, h => by simp [retry] at h
  | n + 1, attempts, last, ks, h => by
    rw [retry] at h ⊢
    cases hn : (B.attempt previous messages onToken (attempts 0)).2 with
    | stop o ms' =>
      rw [hn] at h
      obtain ⟨e, he⟩ := attempt_missing h
      rw [he] at hn
      obtain ⟨-, rfl⟩ := Next.stop.inj hn
      refine ⟨rfl, B.asks messages, ?_, missing_notMem_asks⟩
      rw [he]
    | again f =>
      rw [hn] at h
      have hfirst : ∀ ks', .missing ks' ∉ (B.attempt previous messages onToken (attempts 0)).1 := by
        intro ks' hm
        obtain ⟨e, he⟩ := attempt_missing hm
        rw [he] at hn
        cases hn
      rcases List.mem_append.mp h with h | h
      · exact absurd h (hfirst ks)
      · obtain ⟨hms, p, hp, hnone⟩ := retry_missing n _ f ks h
        refine ⟨hms, (B.attempt previous messages onToken (attempts 0)).1 ++ p, ?_, fun ks' hm => ?_⟩
        · dsimp only
          rw [hp, List.append_assoc]
        · rcases List.mem_append.mp hm with hm | hm
          · exact hfirst ks' hm
          · exact hnone ks' hm

/-- An answer has no images. -/
theorem imageKeys_answer (hC : B.codec.Sound) {frames : List String} {assistant : List Value}
    (h : toOpenAiMessages B.codec (B.answer frames) = .ok assistant) :
    ∀ m ∈ assistant, contentItems m = [] := by
  cases hp : B.codec.parse (B.answer frames) with
  | none => simp [toOpenAiMessages, hp] at h
  | some w =>
    have hwf := canonicalValue_wf ((countsFit_fresh B.opts.provider).feedFrames B.codec frames)
    rw [hC _ w hwf hp] at hp
    rw [toOpenAiMessages_canonical hp] at h
    intro m hm
    rw [← Except.ok.inj h, List.mem_singleton] at hm
    rw [hm]
    exact contentItems_of_stringAt? (s := _) (by simp [assistantMessage, Value.stringAt?]; rfl)

/-- What a call does to the images of a history. -/
structure CallImages (B : Conversation) (ms : List Value) (call : Call) (r : Result) : Prop where
  tidy : Tidy r.messages
  keys : imageKeys r.messages ⊆ imageKeys ms ∪ incomingKeys B.codec call.messageJson
  seen : ∀ e ∈ r.events, ∃ rep, (∀ m ∈ rep, Clean m) ∧
    imageKeys rep = imageKeys ms ∪ incomingKeys B.codec call.messageJson ∧ B.Seen rep e
  missing : ∀ ks, .missing ks ∈ r.events → r.messages = markImageRefsExpired ms ks ∧
    ∃ p, r.events = p ++ [.missing ks] ∧ ∀ ks', .missing ks' ∉ p

theorem callImages (hC : B.codec.Sound) {ms : List Value} (hA : Accepted B ms) (hT : Tidy ms) (call : Call) :
    CallImages B ms call (B.sendAsync ms call) := by
  have hno : CallImages B ms call ⟨ms, [], .thrown⟩ :=
    ⟨hT, Finset.subset_union_left, by simp, by simp⟩
  rcases sendAsync_of_accepted hA call with ⟨o, hs⟩ | ⟨incoming, r, hi, -, hrep, hs⟩
  · rw [hs]
    exact ⟨hno.tidy, hno.keys, hno.seen, hno.missing⟩
  have hkeys : imageKeys r = imageKeys ms ∪ incomingKeys B.codec call.messageJson := by
    rw [hrep.imageKeys, imageKeys_append, incomingKeys_of_ok hi]
  have hclean : ∀ m ∈ r, Clean m := by
    intro m hm
    rcases hrep.mem hm with hm | ⟨id, rfl⟩
    · rcases List.mem_append.mp hm with hm | hm
      · exact hT.clean m hm
      · exact clean_toOpenAiMessages hi m hm
    · intro item hi
      rw [contentItems_toolMessage] at hi
      simp at hi
  rw [collectImageRefKeys_length] at hs
  rcases hs with ⟨hlong, e, hs⟩ | ⟨hfew, hs⟩
  · -- too many images: some of them came with the message, so the turn is rolled back
    have hne : collectImageRefKeys incoming ≠ [] := by
      intro hnil
      have h0 : imageKeys incoming = ∅ := by rw [← collectImageRefKeys_toFinset, hnil]; rfl
      rw [hkeys, incomingKeys_of_ok hi, h0, Finset.union_empty] at hlong
      have := hT.bound
      omega
    rw [hs]
    simp only [if_pos hne]
    exact ⟨hno.tidy, hno.keys, hno.seen, hno.missing⟩
  · have hr : Tidy r := ⟨hclean, hfew⟩
    have hleft : Tidy (B.sendAsync ms call).messages ∧ imageKeys (B.sendAsync ms call).messages ⊆ imageKeys r := by
      rw [hs]
      refine B.retry_messages (Q := fun ms' => Tidy ms' ∧ imageKeys ms' ⊆ imageKeys r) ⟨hr, subset_rfl⟩
        (fun a o ms' hstop => ?_) _ _ _
      rcases B.attempt_stop hstop with rfl | ⟨ks, rfl⟩ | ⟨assistant, ha, rfl⟩
      · exact ⟨hr, subset_rfl⟩
      · have hsub : imageKeys (markImageRefsExpired ms ks) ⊆ imageKeys ms := by
          rw [imageKeys_markImageRefsExpired]
          exact Finset.sdiff_subset
        refine ⟨⟨fun m hm => ?_, (Finset.card_le_card hsub).trans hT.bound⟩, ?_⟩
        · obtain ⟨m', hm', rfl⟩ := List.mem_map.mp hm
          exact (hT.clean m' hm').expire ks
        · rw [hkeys]
          exact hsub.trans Finset.subset_union_left
      · have hnone := imageKeys_answer hC ha
        have heq : imageKeys (r ++ assistant) = imageKeys r := by
          rw [imageKeys_append, imageKeys_eq_empty hnone, Finset.union_empty]
        refine ⟨⟨fun m hm => ?_, by rw [heq]; exact hfew⟩, heq.subset⟩
        rcases List.mem_append.mp hm with hm | hm
        · exact hclean m hm
        · intro item hi
          rw [hnone m hm] at hi
          simp at hi
    refine ⟨hleft.1, hkeys ▸ hleft.2, fun e he => ⟨r, hclean, hkeys, ?_⟩, fun ks hm => ?_⟩
    · rw [hs] at he
      exact B.retry_events (fun a e he => B.seen_attempt he) _ _ _ e he
    · rw [hs] at hm ⊢
      exact retry_missing _ _ _ ks hm

end Conversation

/-! ### Sessions -/

/-- The key was found missing, and no message sent since then has it. -/
def Barred (C : Codec) (log : List Event) (k : String) : Prop :=
  ∃ p ks q, log = p ++ .missing ks :: q ∧ k ∈ ks ∧ ∀ text, .received text ∈ q → k ∉ incomingKeys C text

/-- Longer by events among which nothing is found missing. -/
theorem Barred.of_append {C : Codec} {log t : List Event} {k : String} (h : Barred C (log ++ t) k)
    (hq : ∀ ks, .missing ks ∉ t) : Barred C log k ∧ ∀ text, .received text ∈ t → k ∉ incomingKeys C text := by
  obtain ⟨p, ks, q, hl, hk, hr⟩ := h
  rcases List.append_eq_append_iff.mp hl with ⟨c, -, ht⟩ | ⟨c, hc, hq'⟩
  · exact absurd (by rw [ht]; simp) (hq ks)
  · cases c with
    | nil => exact absurd (by rw [List.nil_append] at hq'; rw [← hq']; simp) (hq ks)
    | cons e c =>
      obtain ⟨rfl, rfl⟩ := List.cons.inj hq'
      exact ⟨⟨p, ks, c, hc, hk, fun text ht => hr text (List.mem_append_left _ ht)⟩,
        fun text ht => hr text (List.mem_append_right _ ht)⟩

/-- Only the last event bars a key that was not barred before it. -/
theorem Barred.of_snoc {C : Codec} {log : List Event} {e : Event} {k : String} (h : Barred C (log ++ [e]) k) :
    (∃ ks, e = .missing ks ∧ k ∈ ks) ∨ Barred C log k := by
  obtain ⟨p, ks, q, hl, hk, hr⟩ := h
  rcases List.eq_nil_or_concat q with rfl | ⟨q, b, rfl⟩
  · obtain ⟨-, he⟩ := List.append_inj' hl rfl
    exact Or.inl ⟨ks, List.singleton_inj.mp he, hk⟩
  · have hl' : log ++ [e] = (p ++ .missing ks :: q) ++ [b] := by simpa using hl
    obtain ⟨rfl, -⟩ := List.append_inj' hl' rfl
    exact Or.inr ⟨p, ks, q, rfl, hk, fun text ht => hr text (by simp [ht])⟩

/-- What holds between the calls of a session, and of its log. -/
structure ImageInv (B : Conversation) (s : Session) : Prop where
  accepted : Accepted B s.messages
  tidy : Tidy s.messages
  barred : ∀ k, Barred B.codec s.log k → k ∉ imageKeys s.messages
  asked : History.Each (fun p e => ∀ ks, e = .asked ks → ∀ k ∈ ks, ¬ Barred B.codec p k) s.log
  wire : ∀ r, .request r ∈ s.log → ∃ body messages, r.body = B.codec.dump body ∧
    body.arrayAt? "messages" = some messages ∧ ∀ m ∈ messages, NoImageRef m

namespace Conversation

variable {B : Conversation}

theorem imageInv_start (B : Conversation) : ImageInv B B.start := by
  have hitems : ∀ m ∈ B.initial, contentItems m = [] := by
    intro m hm
    rcases B.initial_cases with h | ⟨t, h⟩
    · rw [h] at hm; simp at hm
    · rw [h, List.mem_singleton] at hm
      rw [hm]
      exact contentItems_system t
  refine ⟨Accepted.initial B, ⟨fun m hm item hi => ?_, ?_⟩, fun k hk => ?_, History.each_nil, ?_⟩
  · rw [hitems m hm] at hi
    simp at hi
  · rw [start, imageKeys_eq_empty hitems]
    simp
  · obtain ⟨p, ks, q, hl, -⟩ := hk
    simp [start] at hl
  · intro r hr
    simp [start] at hr

theorem imageInv_step (hC : B.codec.Sound) {s : Session} (h : ImageInv B s) (call : Call) :
    ImageInv B ⟨(B.sendAsync s.messages call).messages,
      s.log ++ .received call.messageJson :: (B.sendAsync s.messages call).events⟩ := by
  have hc := callImages hC h.accepted h.tidy call
  -- before its last event a call finds nothing missing
  have hbarred : ∀ q k, (∀ ks, .missing ks ∉ q) → Barred B.codec (s.log ++ .received call.messageJson :: q) k →
      k ∉ imageKeys s.messages ∪ incomingKeys B.codec call.messageJson := by
    intro q k hq hk
    obtain ⟨hlog, hnew⟩ := hk.of_append (by simpa using hq)
    rw [Finset.mem_union, not_or]
    exact ⟨h.barred k hlog, hnew call.messageJson List.mem_cons_self⟩
  refine ⟨(accepted_sendAsync h.accepted call).1, hc.tidy, fun k hk => ?_, ?_, fun r hr => ?_⟩
  · by_cases hm : ∃ ks, .missing ks ∈ (B.sendAsync s.messages call).events
    · obtain ⟨ks, hm⟩ := hm
      obtain ⟨hms, p, hp, hnone⟩ := hc.missing ks hm
      dsimp only at hk ⊢
      rw [hms, imageKeys_markImageRefsExpired, Finset.mem_sdiff, List.mem_toFinset]
      rintro ⟨hin, hout⟩
      -- the last event does not name the key, so it was barred before
      rw [hp, ← List.cons_append, ← List.append_assoc] at hk
      rcases hk.of_snoc with ⟨ks', heq, hks⟩ | hk
      · cases heq
        exact hout hks
      · exact hbarred p k hnone hk (Finset.mem_union_left _ hin)
    · intro hin
      exact hbarred _ k (fun ks hks => hm ⟨ks, hks⟩) hk (hc.keys hin)
  · rw [History.each_append]
    refine ⟨h.asked, ?_⟩
    rintro p e t hsplit ks rfl k hk hbar
    cases p with
    | nil => cases hsplit
    | cons b p =>
      rw [List.cons_append, List.cons.injEq] at hsplit
      obtain ⟨rfl, hsplit⟩ := hsplit
      have hnone : ∀ ks', .missing ks' ∉ p := by
        intro ks' hm
        obtain ⟨-, q, hq, hnone⟩ := hc.missing ks' (by rw [hsplit]; exact List.mem_append_left _ hm)
        have hp : p <+: (B.sendAsync s.messages call).events := ⟨_, hsplit.symm⟩
        have hq' : q <+: (B.sendAsync s.messages call).events := ⟨_, hq.symm⟩
        have hlen := congrArg List.length (hsplit.symm.trans hq)
        simp only [List.length_append, List.length_cons, List.length_nil] at hlen
        exact hnone ks' ((List.prefix_of_prefix_length_le hp hq' (by omega)).subset hm)
      obtain ⟨rep, -, hkeys, hseen⟩ := hc.seen (.asked ks) (by rw [hsplit]; simp)
      refine hbarred p k hnone hbar ?_
      rw [← hkeys, ← mem_collectImageRefKeys, ← (show ks = _ from hseen)]
      exact hk
  · rcases List.mem_append.mp hr with hr | hr
    · exact h.wire r hr
    rcases List.mem_cons.mp hr with hr | hr
    · cases hr
    · obtain ⟨rep, hclean, -, wire, body, hs, hb, rfl⟩ := hc.seen _ hr
      exact ⟨body, wire, rfl, hb.messages, Sent.noImageRef hs hclean⟩

theorem Sends.imageInv (hC : B.codec.Sound) {calls : List Call} {s : Session} (h : B.Sends calls s) :
    ImageInv B s := by
  refine Stepping.Run.invariant (fun x c y hx _ hy => ?_) h (imageInv_start B)
  cases hy
  exact imageInv_step hC hx c

/-- **Image references.** Between the calls of a session the history names at
most 20 images, so a message without images is never over the limit; no body
that is posted has an image reference; the resolver is asked for keys of the
history and of the message only; and a key that was found missing is not
asked for again before a message has it. -/
theorem image_references (B : Conversation) (hC : B.codec.Sound) (calls : List Call) (s : Session)
    (h : B.Sends calls s) :
    (imageKeys s.messages).card ≤ 20 ∧
    (∀ text incoming, toOpenAiMessages B.codec text = .ok incoming → imageKeys incoming = ∅ →
      (collectImageRefKeys (repairToolCallPairing (s.messages ++ incoming)).1).length ≤ 20) ∧
    (∀ r, .request r ∈ s.log → ∃ body messages, r.body = B.codec.dump body ∧
      body.arrayAt? "messages" = some messages ∧ ∀ m ∈ messages, NoImageRef m) ∧
    (∀ call ks, .asked ks ∈ (B.sendAsync s.messages call).events →
      ∀ k ∈ ks, k ∈ imageKeys s.messages ∨ k ∈ incomingKeys B.codec call.messageJson) ∧
    ∀ p ks q ks' t k, s.log = p ++ Event.missing ks :: (q ++ Event.asked ks' :: t) → k ∈ ks → k ∈ ks' →
      ∃ text, Event.received text ∈ q ∧ k ∈ incomingKeys B.codec text := by
  have hI := h.imageInv hC
  refine ⟨hI.tidy.bound, fun text incoming hi h0 => ?_, hI.wire, fun call ks hks k hk => ?_, ?_⟩
  · obtain ⟨r, hr, hrep⟩ := repairToolCallPairing_eq _ (hI.accepted.append hi).message
    rw [hr, collectImageRefKeys_length, hrep.imageKeys, imageKeys_append, h0, Finset.union_empty]
    exact hI.tidy.bound
  · obtain ⟨rep, -, hkeys, hseen⟩ := (callImages hC hI.accepted hI.tidy call).seen _ hks
    rw [← Finset.mem_union, ← hkeys, ← mem_collectImageRefKeys, ← (show ks = _ from hseen)]
    exact hk
  · intro p ks q ks' t k hlog hk hk'
    by_contra hno
    push Not at hno
    have hbar : Barred B.codec (p ++ .missing ks :: q) k := ⟨p, ks, q, rfl, hk, hno⟩
    exact hI.asked (p ++ .missing ks :: q) (.asked ks') t (by simpa using hlog) ks' rfl k hk' hbar

/-- A message that is one image. -/
def imageText : String := "\x7b\"content\":[\x7b\"key\":\"k\",\"type\":\"image_ref\"\x7d]\x7d"

def imageBody : Value :=
  .object [("model", .str "m"), ("stream", .bool true), ("stream_options", .object [("include_usage", .bool true)]),
    ("messages", .arr [.object [("role", .str "user"), ("content", .arr [imageUrlItem "u"])]])]

def imageBodyText : String :=
  "\x7b\"messages\":[\x7b\"content\":[\x7b\"image_url\":\x7b\"url\":\"u\"\x7d,\"type\":\"image_url\"\x7d]," ++
  "\"role\":\"user\"\x7d],\"model\":\"m\",\"stream\":true,\"stream_options\":\x7b\"include_usage\":true\x7d\x7d"

def imageConversation : Conversation :=
  small [(imageText, .object [("content", .arr [imageRefItem "k"])]), (imageBodyText, imageBody)] true

/-- The image has expired. -/
def expiredCall : Call := ⟨imageText, false, fun _ => refused⟩

/-- It is sent again, with a URL. -/
def resentCall : Call := ⟨imageText, false, fun _ => { refused with resolved := .urls [("k", "u")] }⟩

def afterExpired : Session :=
  ⟨(imageConversation.sendAsync [] expiredCall).messages,
    .received imageText :: (imageConversation.sendAsync [] expiredCall).events⟩

def afterResent : Session :=
  ⟨(imageConversation.sendAsync afterExpired.messages resentCall).messages,
    afterExpired.log ++ .received imageText :: (imageConversation.sendAsync afterExpired.messages resentCall).events⟩

/-- What is seen before the key is found missing, and after it is asked for
again. -/
def beforeMissing : List Event := [.received imageText, .asked ["k"]]

def afterAsked : List Event :=
  [.request (imageConversation.httpRequest imageBodyText), .response (some ⟨.invalidArgument, "bad request"⟩)]

theorem image_references_resent :
    imageConversation.codec.Sound ∧ imageConversation.Sends [expiredCall, resentCall] afterResent ∧
    afterResent.log = beforeMissing ++ Event.missing ["k"] ::
      ([Event.received imageText] ++ Event.asked ["k"] :: afterAsked) ∧
    (imageKeys afterResent.messages).card ≤ 20 ∧
    ∃ text, Event.received text ∈ [Event.received imageText] ∧ "k" ∈ incomingKeys imageConversation.codec text := by
  have hC : imageConversation.codec.Sound := Codec.sound_ofTable (by decide +kernel) (by decide +kernel)
  have h1 : imageConversation.Sends [expiredCall] afterExpired :=
    Stepping.Run.snoc (Stepping.Run.nil _) trivial rfl
  have hs : imageConversation.Sends [expiredCall, resentCall] afterResent := Stepping.Run.snoc h1 trivial rfl
  have hlog : afterResent.log = beforeMissing ++ Event.missing ["k"] ::
      ([Event.received imageText] ++ Event.asked ["k"] :: afterAsked) := by decide +kernel
  have h := image_references imageConversation hC _ _ hs
  exact ⟨hC, hs, hlog, h.1, h.2.2.2.2 _ _ _ _ _ "k" hlog (by simp) (by simp)⟩

end Conversation

end AgentFlow.Openai
