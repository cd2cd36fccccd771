import Rematch.Unicode.Span

/-!
General categories of code points (version 17.0). The table of a category lists its maximal
spans in ascending order, packed as `Span.unpack` reads them. A code point that no table lists is
unassigned.
-/

namespace Rematch.Unicode

inductive GeneralCategory where
  | control
  | format
  | privateUse
  | surrogate
  | lowercaseLetter
  | modifierLetter
  | otherLetter
  | titlecaseLetter
  | uppercaseLetter
  | spacingMark
  | enclosingMark
  | nonspacingMark
  | decimalNumber
  | letterNumber
  | otherNumber
  | connectorPunctuation
  | dashPunctuation
  | closePunctuation
  | finalPunctuation
  | initialPunctuation
  | otherPunctuation
  | openPunctuation
  | currencySymbol
  | modifierSymbol
  | mathSymbol
  | otherSymbol
  | lineSeparator
  | paragraphSeparator
  | spaceSeparator
  | unassigned
  deriving DecidableEq

namespace GeneralCategory

def table : GeneralCategory → List Nat
  | .control => [0x10B79B6C0]
  | .format => [
    0x1AD50ADA15A50AF70E00DF719970FCD20BFF34B14E040919DFA960BF0298B800960A9DC19798C9B739AB967B8AFA8,
    0x150B59B7]
  | .privateUse => [0x19E88809CBF7BC8BBF79FFFF519FFFF5]
  | .surrogate => [0x19DC880BFF7]
  | .lowercaseLetter => [
    0x19C1B1F10D0A707008B201008601008A6100002100010213010221010000010010010200011125010100086010087,
    0x101100020008B30610110030008209841B1B800002022A10B2C201220089204001011E2D7008A0900008B11000840,
    0x11008D7D7D0DD86D2129BE75CA8190009E4D3F6940C19C50008990090008D70907591777759177779517777774015,
    0x10220173117791201CA102120B203030117330E40DAD2D70021008230010540008D70160003093C50040FCCA20008,
    0x1A5A2000894A860008402008B60700001000833000100200891404000863000100086B10209CE4D24906997CFCF76,
    0x1934A8D0B1AB94C7A87C3AB2920960601BC82E29F4A5DCF1B7DADF7B7F2B0EAD85B1B160A1B1B1B130006092B1B18,
    0x17B1B3B3B005B1B005B1B005B1B005B1B00500BCE3910A355CFE6C1]
  | .modifierLetter => [
    0x19AE0A13939546000A84040FB50BC50AC31C94130B6090020AB70AC60ABA309F6098E40BBB109D2099C20F975AD5F,
    0x16940C1C49AE009409794DFB61BE00AF60FA40D24409C019B42EFCA50ABC15C9509E10B319F0909970A609C7321FA,
    0x140A50A9009D30A419C63900DA8850D41BFB750D1090AEA20B70DA40FCA20CEDC53FF32C7198C594F7100951BFFF3,
    0x130601B88E0F5B9069ED4098A2099920]
  | .otherLetter => [
    0x1AD20960BF7033B9719CF1B233D4B7091C2109C200A71912109700B5B49B0920A7C0A4A5D1B06924A70697D0F2E52,
    0x10A10691979637111A5060023209709410295191075311A5060182B6300A229790020A506010420A10961A6092711,
    0x11A506010420B5102960A000522032100012122293A50E37020A609720B120111B5037020A60910420B5201961A09,
    0x10020D0109704272A754A12A70900016F1D701935F2100040A7000910190014A63B70F670C3B249E2D2A309753320,
    0x121623949309E0D90031600031D0031C0031600031960F0031982C4979E099D31A00B14992576A194A295A1959402,
    0x196E3C70982C20E4641C100498591B6E0B51492D33B1E5A690E4AD7D6A07E5B594191D3B1C3D0291B59E03050120A,
    0x18F13DFE6E7A7A6906068698C60E4039A57009B1304D209B5A0B7D797FF79CEF7F7D98A40A9E6982C77C933979119,
    0x1810E0985AD009C602602030A6B4E395E1F55200192B391A6B0B46D6D441909140D0A6207A39705202E1002114100,
    0x10A7129260955151590606AA0C2B4ADEC393A63E0A8C83DD519D198200910940400010109D3C0DD2A1F71E5C7939E,
    0x1340A869D0910D41B625151512C2930B10A201096195C19F2E84B42E0D6B794A3075C591B51C3379F79959C1C77E3,
    0x19B3E393CE690A5917AA75100D301201A691A690B6980A20191A591B15B1C5E751F70963020B4D1B42B4C270B3B2E,
    0x1591A591A294A19D5990AE6C3C5300CD7D15197201E7B49107A5D1A1D5A4B2A693E4F011094D4B7B0B1C3B40107C2,
    0x12093D7953A4000C2A10B0A21F6600030960916D6C57111A506010420A10934B59100100C500B0000D3E4A13A32B5,
    0x1D7A3100AE7D6D03C3D7A30F2D2940986B2C46AF0D3BA271017010A7960009B571C697000B3091C760A4092D5A20A,
    0x11990B86C0B6900C4A00E0B59D76010C5A40B05010B7950A6D001C83A29600940C19F309969EB1BC5B83D9939C096,
    0x1A8D7A05B0FEB2499869DAF0B5BBC198F06B6A0996A0B5A1D7E2A44A2EE2C7EA499240AD69EBA5D0B79C09E2A9894,
    0x1CC2960B42109537E93CC839D2494290691A99D70FE4D4C00D80B5A1D3FC3B2BC4B510B96B602010614900BC06030,
    0x110960B84ACF230B201001009103000050300000020100100083010013060303000910A042040A098D839ABBB7B79,
    0x18CB519BA9519ECE09699D5CEC198B5AFC199D924A8CD1]
  | .titlecaseLetter => [0x1F8501010C509EEA477777930960D60]
  | .uppercaseLetter => [
    0x1981B19C4A606C00008B210008610008A501000021000102130102210100000100100102000120601082008610008,
    0x17101002008B4610110030083CC00002070500200010A0090C201220008924010011E2D7000897900008B10100851,
    0x10008D61C5DD90C500409BA19A5CAA205D212CF70008991900008D7907759177775920008277987393381934923C8,
    0x1503022121024500000031391140F40D9F3D7D700210000003001072008E0700030FCD940008A5A2000894A860008,
    0x1520008B591000010083300010002000890040400860300010087A70DBCD2B1AB84C7A87C3AB3920960601BBD1E2A,
    0x1B4A5DCF1B7DADF7B7F7B0EAD86B1B1B181B100110111307B1B1B11031706B2103040026B2B1B1B184B5B0C0B083C,
    0x10098CE4C1]
  | .spacingMark => [
    0x1CC830E60127301E11F125111910D20F129810F127001E41F100051119109C51012202910D02F43F41F1004110190,
    0x11B30951F124202910D11992257A11D911F60AD21305011B0191216A411510912B9E70B50A8006701DB13123105BB,
    0x171F10009000175AA00D70400401F40B503110F30120021D7771AD20A4099CE51FBFE21109A71E197A951D60D7131,
    0x1129D5111A70D40009D401140BD41010100EA8A20009F60D42319E20A71F20D729019409B422100AD12B61F110311,
    0x1129009119A3260100301009C4271209D12500310BD4253109E0271009D4001509C600130C842900BE6501301000A,
    0x195273309A30B41F50B9002000B8609509D106010BA443100DB51930D717100C8FC72F8C3E69C71E8DE2155]
  | .enclosingMark => [0x1AA9019B8E30B8B530298AE922]
  | .nonspacingMark => [
    0x19C809D7CA24C90D40001010098792D7A49709C46151103C20B5B29B292F190900A730900204D22F290D1A70B7E60,
    0x100373026911B40F103370A31B1011F0031311220B5120921F00340130A31A5500F1010037061921B50F40930E102,
    0x10E6002420361921B40F10105041A31B31F013370A31B40987062009B10169379C101909269901B200000E6950401,
    0x14920C39009C53050111B013297394011509609AF629EE12B41B5181F710670192900D42009E41C109E523190052B,
    0x1B2110F100600001759110D7950B6193A33D70040040C790931B731102E70012002F1711AA7209406305021B85F79,
    0x1B979430293DFF52A9409B7B798D139D21FAFA30391B719971C9702030B0140AA61B1A1940C57B092D52D701311C6,
    0x109825111193070D60E2002114100D1170BD501030CFCD709BC09797979F940BC10AA44BA8520143C7230AC4198F4,
    0x139804CF41994598592E039F20E596D0011912E031160F42C3407F50931E390913109B6210015010AB4027A41F012,
    0x10C4624985594000009519A471200A609A35003101BD535101B219A4710019D100015009C40001304C829001BF710,
    0x1030A9731130B791C75137090512D59401B8500200B90605009A1A51601019F152001060098712000DB21921E3440,
    0x100A609ABC40596AEB879322CEF74F26A8A70F639A00CEAE71999C0D51A698B72A0716B53AA32BEF2E63E170950A5,
    0x14096AD9760A01601049C30AB76DE60F43FF33BF51BE20106140FB169D46B89BEE4BD7]
  | .decimalNumber => [
    0x1E091B8C591A8591B8591EB3919E5918909B7919E59198591CA59198591BD8591C591CD3919F791AC591591AE5919,
    0x1A591A859159198CF85919AC591C591B8591A5919A591EA591D9CA591AE8591CA85915919CB3919F791F391A9791C,
    0x1A591DA5919E591DE5919C5915A399391EC5919C5919AA5919A591BE59198591E591DC591C8FA591CCC5919A591A8,
    0x159198A591DFDE591DBA3E1CCF791EC591FE591BE6919DA49199AA591]
  | .letterNumber => [0x19BBD62D9D6C213F9F50B090952FBAD291DD997E4F93070A854A88D19D6CDE842]
  | .otherNumber => [
    0x1AE214012CCE45DE759E72A846BB06A090EE091A8E4A3A9E291FB70BAA4025591B8597D009BA5F3995A599E5B5ADD,
    0x100AAA33A9191B57096B791C696FADD75DCBA0D49803A01DA4B2C33ACE37B06C6909924A55AB711971D5F790E31B5,
    0x1299249C77A77D06D915DB7B6AB591D139D76A85A3DF2A3AD841ED5909DC6A29DA2A4CDE8569CB5A6EA8D0A393A39,
    0x1D3B09AD95909EC0F20203993D40969F8194]
  | .connectorPunctuation => [0x19B709FFB61A209DEFB51A72BD60]
  | .dashPunctuation => [
    0x1D50ADB30E20F9800A8840C8905F880010B6130B30EF50A209D609CEE971C40910AD00F9B70CF50]
  | .closePunctuation => [
    0x1D10E20B60FAF4000BDB50CED00E6096099F1000B50A8F5000859970B700083EA3000891F7000C00A8C400082D300,
    0x1082ED300083200082119CECB50BB00B40008620A000000AD10E20B601010]
  | .finalPunctuation => [0x1AF309FDB4020B30EF87000301096020]
  | .initialPunctuation => [0x1AD309FDD301110B00EF87000301096020]
  | .otherPunctuation => [
    0x1C120210000191121B20983040951609AF5070FA15D00E501010D31A31019400299139C50D295BD02E596B60C8419,
    0x110A9309E709F00E850930DD609B10911AC796009D709914319D65AD2099C3909C8409F329861AB4202C4503CF01B,
    0x1A719F7605AB71916B329F33F24F51F779209D81177790131229200091EAB13019D70A96132101900100119140911,
    0x130009412ED32F00AF40FA8811C9429C209109E25DF339A51C7200E01D609C0949719F339F51971BF00D98C3610A5,
    0x10A31132203625001AA420210000191121B20C3011EB129AB30D70EB509BC60B860B60C9790C509D7698169B039CE,
    0x120A834D33AF469D41039F53D71996330940029A759D20CD11019E14911009C70BF1A69D02B3949930A812BF30C87,
    0x12AB209B379A22049B491BA609B64D119A84199194AD60A9D74DDF31BD9F21A84098047098C72CC63D860CEAF309E,
    0x1FC64DDE209DB51]
  | .openPunctuation => [
    0x1D00E10B60FAF5000BDB50CDF5020C50E6096099F1000B50A8F5000859970B700083EA3000891F7000C00A8C40008,
    0x12B00A100082ED300083200082109CECC00BA60B40008620A000000AD10E10B602010]
  | .currencySymbol => [
    0x1C409F43ABD009F20FE118160BE40C86099840CEB20CB83C198BDE50DAF8209D30AB10BB21219FFE539C9CB50CED7,
    0x10]
  | .modifierSymbol => [
    0x19B6000986050302098903939546000A09E40951AC8109BCE30029229428194198AB31FB9C2A69019C619F970951D,
    0x18985A09DF2000AC109FA8A64]
  | .mathSymbol => [
    0x1D30972F4000D4030C40B609BF50989629D8F20940C62942A920C645098344130101060B611000B6C93B719B10B5B,
    0x10C75FA40900E579D60D9741B69197BF7A82A5F63B71C81D7A4159CFFB309CE7002AC30972F4000A82053EEC019C8,
    0x1DB70BF970B00B60B00B60B00B60B00B60B009BCD31CFB590]
  | .otherSymbol => [
    0x1AC601030009FA00C9119F61B950910A21BE6098820DE40A81500A830B960D00E8629600215A300000A847050143B,
    0x18419BD7919BA209BA10AB4C1DC0919090AE821030191001550082309219500100F11904130101060B611000B6C93,
    0x173A31619A00B5B0C75987A5929A0995A5AE60900E579D60BE7D3D3F7BF7FF7D7A415C61A91BC45DC41D5B109B093,
    0x1BA5B19730941930A4151D971391B7C590097B692B57096B791C696CF79CEF7F7DBA97E69DC039110098F42D8D909,
    0x17DD497F71E57D42FC302031941CF090F0A01209420D6D4B9F1199960A8877C9C50CAA473A0CDD91340D8DA50FDC2,
    0x1BD79122EE35A696979B79E3F3BE591C61F342A516B53F4A498120AF19A6AAD0FF7E63E1709501BB870DDB30A8009,
    0x1BA0D339C393961960960C4A6AC0E7B494D339061955AB1BF249BB02A02942BB15933096933E77915C77B519331F5,
    0x1DA77951942922F0003971933916AA209B3910]
  | .lineSeparator => [0x1A88D00]
  | .paragraphSeparator => [0x1A88D10]
  | .spaceSeparator => [0x1C009F609AFB60CDF692C30D60FEB70]
  | .unassigned => []

def assignedSpans (category : GeneralCategory) : List Span := Span.unpack category.table

def assigned : List GeneralCategory := [
  .control, .format, .privateUse, .surrogate, .lowercaseLetter, .modifierLetter,
  .otherLetter, .titlecaseLetter, .uppercaseLetter, .spacingMark, .enclosingMark, .nonspacingMark,
  .decimalNumber, .letterNumber, .otherNumber, .connectorPunctuation, .dashPunctuation,
  .closePunctuation, .finalPunctuation, .initialPunctuation, .otherPunctuation, .openPunctuation,
  .currencySymbol, .modifierSymbol, .mathSymbol, .otherSymbol,
  .lineSeparator, .paragraphSeparator, .spaceSeparator]

end GeneralCategory

end Rematch.Unicode
