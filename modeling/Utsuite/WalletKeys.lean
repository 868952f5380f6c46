import Utsuite.WalletDump

namespace Utsuite.WalletKeys

open CurveKeys Transitions Wallet WalletDump WalletFile

theorem reach_stored {S : Setting} {T : TextFunctions S.fn} (hnew : ∀ n, S.fn.Valid (S.makeNewKey n))
    (h : Reach (walletSystem S T) w) : Stored S False Never w := by
  refine h.invariant (fun _ hs => hs ▸ empty_stored S False) fun w action w' hw hnext => ?_
  exact next_stored (fun n => ⟨False.elim, hnew n⟩) hw False.elim hnext

/-- A restart after any run brings back the keys and names that were there, and no others. -/
theorem reload_restores_keys {S : Setting} {T : TextFunctions S.fn}
    (hnew : ∀ n, S.fn.Valid (S.makeNewKey n))
    {w : CWallet} (h : Reach (walletSystem S T) w)
    (hids : ∀ key key', S.fn.Valid key → S.fn.Valid key' → S.fn.getPubKey key ∈ w.db.key →
      S.fn.getPubKey key' ∈ w.db.key →
      S.fn.getID (S.fn.getPubKey key) = S.fn.getID (S.fn.getPubKey key') → key = key') :
    ∃ w', reload S w = .ok () w' ∧ w'.mapAddressBook = w.mapAddressBook ∧
      ∀ keyid, w'.mapKeys.lookup keyid = w.mapKeys.lookup keyid := by
  have hw := reach_stored hnew h
  have hw' := reload_kept w ⟨hw, False.elim⟩
  refine ⟨_, rfl, hw.named.symm, fun keyid => Option.ext fun key => ?_⟩
  -- a key of either wallet is in the file, from where the other one has a key for its id
  have hsame {a b : CWallet} (ha : Stored S False Never a) (hb : Stored S False Never b) (hda : a.db.key = w.db.key)
      (hdb : b.db.key = w.db.key) (hkey : a.mapKeys.lookup keyid = some key) :
      b.mapKeys.lookup keyid = some key := by
    obtain ⟨rfl, hvalid, hfile⟩ := ha.keyed keyid key hkey
    rw [hda] at hfile
    obtain ⟨key', hkey'⟩ := Option.isSome_iff_exists.mp
      (AList.lookup_isSome.mpr (hb.key_known _ (hdb ▸ hfile)))
    obtain ⟨hid, hvalid', hfile'⟩ := hb.keyed _ key' hkey'
    rw [hkey', hids key' key hvalid' hvalid (hdb ▸ hfile') hfile hid]
  exact ⟨hsame hw' hw rfl rfl, hsame hw hw' rfl rfl⟩

theorem reload_restores_new_key :
    ∃ w w', Reach (walletSystem oneKey dumpTexts) w ∧ reload oneKey w = .ok () w' ∧
      w'.mapKeys.lookup (sampleID 1) = some (sampleKey 1) := by
  obtain ⟨w, hexec, hkey, hfile⟩ := ok_of_run (m := exec oneKey dumpTexts .generateNewKey)
    (w := CWallet.empty false true)
    (p := fun w => w.mapKeys.lookup (sampleID 1) = some (sampleKey 1) ∧
      w.db.key.keys = [samplePubKey 1]) (by decide +kernel)
  have hreach : Reach (walletSystem oneKey dumpTexts) w := .step (.start rfl) (.inl hexec)
  have hone (key : CKey) (hvalid : oneKey.fn.Valid key) (hmem : oneKey.fn.getPubKey key ∈ w.db.key) :
      key = sampleKey 1 := by
    rw [AList.mem_keys, hfile, List.mem_singleton] at hmem
    exact eq_sampleKey hvalid hmem
  obtain ⟨w', hreload, -, hkeys⟩ := reload_restores_keys (fun _ => sampleKey_valid) hreach
    fun key key' hvalid hvalid' hmem hmem' _ => (hone key hvalid hmem).trans (hone key' hvalid' hmem').symm
  exact ⟨w, w', hreach, hreload, (hkeys _).trans hkey⟩

end Utsuite.WalletKeys
