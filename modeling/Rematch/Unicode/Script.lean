import Rematch.Unicode.Span

/-!
Scripts of code points (version 17.0). The table of a script lists its maximal spans in ascending
order, packed as `Span.unpack` reads them.
-/

namespace Rematch.Unicode

structure Script where
  name : String
  packed : List Nat

namespace Script

private def tableA : List Script := [
  ⟨"Adlam", [0x1BECC8099339131]⟩,
  ⟨"Ahom", [0x1A9BC80B21963A6]⟩,
  ⟨"Anatolian_Hieroglyphs", [0x1ACA8809986]⟩,
  ⟨"Arabic", [
    0x1B880405095020B709192B109D30C1997D7BD7C149920B49F9997FD51A97B7979D740A86FDC2B69825790C059DFBF,
    0x1730B201001009103000050300000020100100083010013060303000910A042040A0E31]⟩,
  ⟨"Armenian", [0x1ACE1C51E1129FAE824]⟩,
  ⟨"Avestan", [0x1A8DC80E526]⟩,
  ⟨"Balinese", [0x19DC809940E1]⟩,
  ⟨"Bamum", [0x19ABAC09A79C8C8798F0]⟩,
  ⟨"Bassa_Vah", [0x1AEDBA0B515]⟩,
  ⟨"Batak", [0x19DF80E373]⟩,
  ⟨"Bengali", [0x1CE80307111A506002319011137031041B0]⟩,
  ⟨"Beria_Erfe", [0x1AEFAC0B01B0]⟩,
  ⟨"Bhaiksuki", [0x1A9E880900D409591B4]⟩,
  ⟨"Bopomofo", [0x19BD21AF8B0D29D7B7]⟩,
  ⟨"Brahmi", [0x1A988809953C3900]⟩,
  ⟨"Braille", [0x1AC880BF7]⟩,
  ⟨"Buginese", [0x19D880B311]⟩,
  ⟨"Buhid", [0x19BD80A3]⟩,
  ⟨"Canadian_Aboriginal", [0x19A88099F798D7985A88EF197]⟩,
  ⟨"Carian", [0x1A89AC0E0]⟩,
  ⟨"Caucasian_Albanian", [0x1A8ACE0E3920]⟩,
  ⟨"Chakma", [0x1A98C80E40A1]⟩,
  ⟨"Cham", [0x19AD880E6909519113]⟩,
  ⟨"Cherokee", [0x199EC09A51599BDE1997]⟩,
  ⟨"Chorasmian", [0x1A8FEE0B3]⟩,
  ⟨"Common", [
    0x10980B15B1D609604A60B60F80C6441A39E30900500099F405095020B70AB3098830A801ABB00EA43CC10AFD6298,
    0x161B92100AB940940630502109C849319A6092292096A0C1F5C502150B20A0D0239AB1A592A49EB7BF799E31A91F,
    0x1F79B5EA1A4000B0967339B21209B11AA297B7C5900D7F7B69A0D609A7AC79CEF7F7DCBF7C19C52AC491BE30AB70,
    0x1E920951D8FA11B9791A5C20A203AA200B7B15B192910D41F7606914C8123D429099794E2D4BC3B29BCEC33FDB3B,
    0x1F42EE35A696A09B69E3F3BE591C61F52A0716B53F4BA4A393A3939A690B0A869A40986011011130930006098003,
    0x117060B3030400260DA31CC31E19A9E0983993F49B81D339C393961960960C491AD5E7B10194D339061955AB19FB,
    0x102A02942BB15933096933E77915C77B5193319590C6DA77951942922F0003971933916AA209C6B88A8850B59B7]⟩,
  ⟨"Coptic", [0x19FC295ACA979E346]⟩,
  ⟨"Cuneiform", [0x1AA88809EB19C59D60492B83]⟩,
  ⟨"Cypriot", [0x1A8C8805100D3012010]⟩]

private def tableB : List Script := [
  ⟨"Cypro_Minoan", [0x1AAFEA09C2]⟩,
  ⟨"Cyrillic", [0x1A880A841AD09BD9792AB709930989C6B7FC8F79B7DBE9519E8FF7F5C00]⟩,
  ⟨"Deseret", [0x1A8A880997]⟩,
  ⟨"Devanagari", [0x1CC809A03961B199FDB7B7F8FF791]⟩,
  ⟨"Dives_Akuru", [0x1A9CC8061017010B5011939091]⟩,
  ⟨"Dogra", [0x1A9C880F3]⟩,
  ⟨"Duployan", [0x1BBE8809D249429069113]⟩,
  ⟨"Egyptian_Hieroglyphs", [0x1AB8880A9A591FEB2]⟩,
  ⟨"Elbasan", [0x1A8AC80C7]⟩,
  ⟨"Elymaic", [0x1A8FFC0A6]⟩,
  ⟨"Ethiopic", [
    0x199880990031600031D0031C0031600031960F00319821B72B19CFC5A69060686FECC15151590606ABEAE06030109,
    0x16]⟩,
  ⟨"Garay", [0x1A8ED80C52B471]⟩,
  ⟨"Georgian", [0x198AC0C500401D203DE97D212988F7C50040]⟩,
  ⟨"Glagolitic", [0x1AE8809B7BB9EB760A0160104]⟩,
  ⟨"Gothic", [0x1A89CE0B2]⟩,
  ⟨"Grantha", [0x1A99C80307111A506010419011121050461624]⟩,
  ⟨"Greek", [
    0x19DE03021300300002000A30F695979CCC54E14349A30CF7A5151C5151700820B61E4096095150A212090CC6098D8,
    0x1F50DAFB1996A009D89B6985]⟩,
  ⟨"Gujarati", [0x1DA812090020A506010419102021096319366]⟩,
  ⟨"Gunjala_Gondi", [0x1A9EDC05010C40105691]⟩,
  ⟨"Gurmukhi", [0x1D881205311A5060182100431122063006A0]⟩,
  ⟨"Gurung_Khema", [0x1AE8C80F1]⟩,
  ⟨"Han", [
    0x1AFA80B109B093BA5D6000B0909539F839CEF7F7D8FF7DCBF7DD519D1FAC8719369988909ABBB7B798CB519BA951,
    0x19ECE09699D5CEC198B5AFC199D924A8CD1]⟩,
  ⟨"Hangul", [0x198C80BF79F8D51C809B59E0B6980B6FBBC0B49A82ADEC393A63E0ABEC3B625151512]⟩,
  ⟨"Hanifi_Rohingya", [0x1A8EC80C7791]⟩,
  ⟨"Hanunoo", [0x19BCC0A4]⟩,
  ⟨"Hatran", [0x1A8CBC0A20144]⟩,
  ⟨"Hebrew", [0x1AEA1E67B2359FACC7B104000101091]⟩,
  ⟨"Hiragana", [0x1B89819A552AFFDC0CB6A10B42C8AD40]⟩,
  ⟨"Imperial_Aramaic", [0x1A8C980A5090]⟩]

private def tableC : List Script := [
  ⟨"Inherited", [
    0x19C809D7CA41F8392B109BB7398DB2D5193FC3209406305021B85F798931B81C0FCF039D219CEDC49797959F960B,
    0x1C10989B109BDF83D51A698B72A0716B53B8AFDA1BD7]⟩,
  ⟨"Inscriptional_Pahlavi", [0x1A8DDC0A247]⟩,
  ⟨"Inscriptional_Parthian", [0x1A8DD80A517]⟩,
  ⟨"Javanese", [0x19ACE8099519131]⟩,
  ⟨"Kaithi", [0x1A98A80982910]⟩,
  ⟨"Kannada", [0x1EA8094020A609104190020361420319102]⟩,
  ⟨"Katakana", [0x1B8AC19B112BD797B97D609A79CE895910D49B89A13060100CB62E10953]⟩,
  ⟨"Kawi", [0x1A9FC80A00D02B4]⟩,
  ⟨"Kayah_Li", [0x19ACC80D500]⟩,
  ⟨"Kharoshthi", [0x1A8D88030147020B412391690]⟩,
  ⟨"Khitan_Small_Script", [0x1AEFFC409DCB2FA5D00]⟩,
  ⟨"Khmer", [0x19BE809B5191591FC5B7]⟩,
  ⟨"Khojki", [0x1A99880A10D6]⟩,
  ⟨"Khudawadi", [0x1A99AE0F2491]⟩,
  ⟨"Kirat_Rai", [0x1AEED80F1]⟩,
  ⟨"Lao", [0x1FA81100040A7000A614000609113]⟩,
  ⟨"Latin", [
    0x1981B15B1D609604A60B60F80C649D8B2C55E0434940985980BF7DE009409794A94150B20A0D0DBA6B7FDAC19C52,
    0x19A1A3969CD7D209003CFEA56A8B1B15B1C8C450D10909DBD84B655]⟩,
  ⟨"Lepcha", [0x19E880E729622]⟩,
  ⟨"Limbu", [0x19CC80B609339330293]⟩,
  ⟨"Linear_A", [0x1A8B880CE690A5917]⟩,
  ⟨"Linear_B", [0x1A88880930B10A201096195C19F2]⟩,
  ⟨"Lisu", [0x19AABA0D7FDAD70]⟩,
  ⟨"Lycian", [0x1A89A80B4]⟩,
  ⟨"Lydian", [0x1A8CCC0B140]⟩,
  ⟨"Mahajani", [0x1A98DA0C6]⟩,
  ⟨"Makasar", [0x1A9FBC0B0]⟩,
  ⟨"Malayalam", [0x1EC8094020E202053971B1]⟩,
  ⟨"Mandaic", [0x1C980B310]⟩,
  ⟨"Manichaean", [0x1A8DB80C6393]⟩]

private def tableD : List Script := [
  ⟨"Marchen", [0x1A9E9E0B71A5095]⟩,
  ⟨"Masaram_Gondi", [0x1A9EC806010D32001090791]⟩,
  ⟨"Medefaidrin", [0x1AEF9809B2]⟩,
  ⟨"Meetei_Mayek", [0x19ADBC0A6B90D5191]⟩,
  ⟨"Mende_Kikakui", [0x1BEC880B84197]⟩,
  ⟨"Meroitic_Cursive", [0x1A8CEC0A73A31D5]⟩,
  ⟨"Meroitic_Hieroglyphs", [0x1A8CE80B7]⟩,
  ⟨"Miao", [0x1AEFC809923F06A0]⟩,
  ⟨"Modi", [0x1A9B8809849291]⟩,
  ⟨"Mongolian", [0x19C8801100A359B06D29FEEE494]⟩,
  ⟨"Mro", [0x1AED980B609131]⟩,
  ⟨"Multani", [0x1A99A8060003096092]⟩,
  ⟨"Myanmar", [0x198880AB799CCF7B69C0B7EE997A3]⟩,
  ⟨"Nabataean", [0x1A8CA80B6790]⟩,
  ⟨"Nag_Mundari", [0x1BEABA0D1]⟩,
  ⟨"Nandinagari", [0x1A9CEC071D5192]⟩,
  ⟨"New_Tai_Lue", [0x19CE80D33B159221]⟩,
  ⟨"Newa", [0x1A9A8809B304]⟩,
  ⟨"Nko", [0x1BF80F212]⟩,
  ⟨"Nushu", [0x1AEFFC10C8E95E93]⟩,
  ⟨"Nyiakeng_Puachue_Hmong", [0x1BE8C80D429519131]⟩,
  ⟨"Ogham", [0x19BA80B4]⟩,
  ⟨"Ol_Chiki", [0x19E9A0D7]⟩,
  ⟨"Ol_Onal", [0x1BEAFA0D230]⟩,
  ⟨"Old_Hungarian", [0x1A8EA80E294E265]⟩,
  ⟨"Old_Italic", [0x1A89C80C3902]⟩,
  ⟨"Old_North_Arabian", [0x1A8DA80B7]⟩,
  ⟨"Old_Permic", [0x1A89DA0D2]⟩,
  ⟨"Old_Persian", [0x1A89EC0C3395]⟩]

private def tableE : List Script := [
  ⟨"Old_Sogdian", [0x1A8FC80C7]⟩,
  ⟨"Old_South_Arabian", [0x1A8D9C0B7]⟩,
  ⟨"Old_Turkic", [0x1A8E880990]⟩,
  ⟨"Old_Uyghur", [0x1A8FDE0B1]⟩,
  ⟨"Oriya", [0x1DC81207111A506010419011126231041A1]⟩,
  ⟨"Osage", [0x1A8AAE0C33C3]⟩,
  ⟨"Osmanya", [0x1A8AA80B5191]⟩,
  ⟨"Pahawh_Hmong", [0x1AEDC809859191060A44A2]⟩,
  ⟨"Palmyrene", [0x1A8C9C0B7]⟩,
  ⟨"Pau_Cin_Hau", [0x1A9DB80F0]⟩,
  ⟨"Phags_Pa", [0x19AC980E7]⟩,
  ⟨"Phoenician", [0x1A8CC80B320]⟩,
  ⟨"Psalter_Pahlavi", [0x1A8DE80A163936]⟩,
  ⟨"Rejang", [0x19ACCE0C3920]⟩,
  ⟨"Runic", [0x19BAC0992292]⟩,
  ⟨"Samaritan", [0x1C880D5196]⟩,
  ⟨"Saurashtra", [0x19ACA80985793]⟩,
  ⟨"Sharada", [0x1A98E809B7CDF77]⟩,
  ⟨"Shavian", [0x1A8A9A0D7]⟩,
  ⟨"Siddham", [0x1A9AE80E51C5]⟩,
  ⟨"Sidetic", [0x1A8CD80B1]⟩,
  ⟨"SignWriting", [0x1BDC8809A93964096]⟩,
  ⟨"Sinhala", [0x1EE8120A12A709000162035000759112A89FD3A3]⟩,
  ⟨"Sogdian", [0x1A8FCE0D1]⟩,
  ⟨"Sora_Sompeng", [0x1A98BA0B0691]⟩,
  ⟨"Soyombo", [0x1A9D9A09A2]⟩,
  ⟨"Sundanese", [0x19DE80F7BF77]⟩,
  ⟨"Sunuwar", [0x1A9DF80C19591]⟩,
  ⟨"Syloti_Nagri", [0x19AC880D4]⟩]

private def tableF : List Script := [
  ⟨"Syriac", [0x1BC80950F312C9792]⟩,
  ⟨"Tagalog", [0x19BC80A5900]⟩,
  ⟨"Tagbanwa", [0x19BDC0940201]⟩,
  ⟨"Tai_Le", [0x19CDA0B514]⟩,
  ⟨"Tai_Tham", [0x19D8C0F60B4192591595]⟩,
  ⟨"Tai_Viet", [0x19ADA80982A74]⟩,
  ⟨"Tai_Yo", [0x1BEBB80B60A571]⟩,
  ⟨"Takri", [0x1A9BA80F1591]⟩,
  ⟨"Tamil", [0x1DE8210522032100012122293342203105095A4A99F84E1940]⟩,
  ⟨"Tangsa", [0x1AED9E0996091]⟩,
  ⟨"Tangut", [0x1AEFFC00B69DBF7FF7B69C09E2]⟩,
  ⟨"Telugu", [0x1E88094020A6097190020361020113191690]⟩,
  ⟨"Thaana", [0x1BE80E1]⟩,
  ⟨"Thai", [0x1F881F14B3]⟩,
  ⟨"Tibetan", [0x1FC809870C33C60C30960631]⟩,
  ⟨"Tifinagh", [0x1AECE0E761950]⟩,
  ⟨"Tirhuta", [0x1A9AA80987791]⟩,
  ⟨"Todhri", [0x1A8AF80E3]⟩,
  ⟨"Tolong_Siki", [0x1A9EEE0D3391]⟩,
  ⟨"Toto", [0x1BE9AA0B6]⟩,
  ⟨"Tulu_Tigalari", [0x1A99E809100100C50910010030910171]⟩,
  ⟨"Ugaritic", [0x1A89E80B500]⟩,
  ⟨"Vai", [0x19AAC80CD3]⟩,
  ⟨"Vithkuqi", [0x1A8ADE09209606010920960601]⟩,
  ⟨"Wancho", [0x1BE9B80F140]⟩,
  ⟨"Warang_Citi", [0x1A9CAC09A2930]⟩,
  ⟨"Yezidi", [0x1A8FA80D10211]⟩,
  ⟨"Yi", [0x19A8880AA942E6]⟩,
  ⟨"Zanabazar_Square", [0x1A9D880987]⟩]

def all : List Script :=
  tableA ++ tableB ++ tableC ++ tableD ++ tableE ++ tableF

def spans (script : Script) : List Span := Span.unpack script.packed

end Script

end Rematch.Unicode
